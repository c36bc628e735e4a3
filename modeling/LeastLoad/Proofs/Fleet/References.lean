import LeastLoad.Proofs.Fleet.Deeds

/-! # What keeps a state

A state that is held is the one that the directory lists for its endpoint, so that all who hold a
state of one endpoint share it. What nobody holds has no reference but that of the directory; it is
forgotten when the directory is pruned, and only for an endpoint without a holder is a state made
anew. -/

namespace LeastLoad

/-- How many references to a state a selection keeps. A grouping has one for each place in its
groups; a ranking has one in the heap array, one as a key of the index and one in its table of
members. -/
def Selection.references (r : LoadRef) : Selection → Nat
  | .grouped g => g.members.count r
  | .ranked k => k.queue.toList.count r + k.queue.index.toList.countP (·.1 = r) +
      k.members.toList.countP (·.2 = r)

theorem Selection.mem_refilled_of_mem {t : LoadTable} {states : List LoadRef} {x : Selection}
    {r : LoadRef} (hs : t.Apart states)
    (hx : ∀ g, x.refilled t states = .grouped g → 0 < g.maxGroup)
    (hr : r ∈ states) : r ∈ (x.refilled t states).members := by
  cases x with
  | grouped g =>
    have hpos : 0 < g.maxGroup := hx (.layout g.maxGroup states) rfl
    change r ∈ (Grouping.layout g.maxGroup states).groups.items.flatten
    rwa [Grouping.items_layout, flatten_slices_partition _ hpos]
  | ranked k => exact Multiset.mem_coe.1 (((Ranking.Tidy.replace hs).2 r).2 hr)

namespace Fleet

variable {f f' start : Fleet} {b : Nat} {r : LoadRef} {c : LoadSettings} {e : Endpoint}
  {es : List Endpoint} {states : List LoadRef} {x : Selection}

def entries (f : Fleet) : List (Endpoint × LoadRef) :=
  f.directory.elim [] (·.entries.toList)

/-- How many references to a state there are, that of the directory included. -/
def references (f : Fleet) (r : LoadRef) : Nat :=
  f.entries.countP (·.2 = r) + f.held.count r + f.tickets.countP (·.load = r) +
    ((List.range f.seats.size).map fun b =>
      if f.isAlive b then (f.selection? b).elim 0 (·.references r) else 0).sum

structure Forgets (f : Fleet) (n : Nat) (f' : Fleet) : Prop where
  rest : f' = { f with directory := f'.directory }
  kept : ∀ e r, f'.find? e = some r ↔ f.find? e = some r ∧ ∃ x, f.Holds x r
  count : ∃ gone : List (Endpoint × LoadRef), gone.Nodup ∧ n = gone.length ∧
    ∀ e r, (e, r) ∈ gone ↔ f.find? e = some r ∧ ¬ ∃ x, f.Holds x r

structure Reassigned (b : Nat) (es : List Endpoint) (f f' : Fleet) : Prop where
  loads : ∀ r : LoadRef, r.place < f.loads.states.size → f'.loads.load r = f.loads.load r
  others : ∀ x r, x ≠ .balancer b → (f'.Holds x r ↔ f.Holds x r)
  own : ∀ r, f'.Holds (.balancer b) r → f'.loads.endpoint r ∈ es
  given : f'.isAlive b = true → ∀ x, f'.selection? b = some x →
    (∀ g, x = .grouped g → 0 < g.maxGroup) →
      ∀ e ∈ es, ∃ r, f'.Holds (.balancer b) r ∧ f'.loads.endpoint r = e
  kept : ∀ e r, f.find? e = some r → (f'.find? e = some r ↔ ∃ x, f'.Holds x r)
  held : ∀ e r, f'.find? e = some r → ∃ x, f'.Holds x r

theorem mem_entries : (e, r) ∈ f.entries ↔ f.find? e = some r := by
  rw [entries, find?]
  cases f.directory with
  | none => simp
  | some d => exact Std.HashMap.mem_toList_iff_getElem?_eq_some

theorem nodup_entries (f : Fleet) : f.entries.Nodup := by
  rw [entries]
  cases f.directory with
  | none => exact List.nodup_nil
  | some d =>
    refine d.entries.distinct_keys_toList.imp fun hne heq => ?_
    rw [heq, beq_self_eq_true] at hne
    cases hne

theorem fst_prune (f : Fleet) :
    f.prune.1 = (f.entries.filter fun x => !f.isReferenced x.2).length := by
  rw [prune, entries]
  cases f.directory with
  | none => rfl
  | some d =>
    have hkept : (d.entries.filter fun _ r => f.isReferenced r).size =
        (d.entries.toList.filter fun x => f.isReferenced x.2).length := by
      rw [← Std.HashMap.length_toList]
      exact Std.HashMap.toList_filter.length_eq
    have hall := List.length_eq_length_filter_add (l := d.entries.toList)
      fun x => f.isReferenced x.2
    change d.entries.size - (d.entries.filter fun _ r => f.isReferenced r).size = _
    rw [hkept, ← Std.HashMap.length_toList, hall, Nat.add_sub_cancel_left]
    rfl

theorem forgets_prune (f : Fleet) : Forgets f f.prune.1 f.prune.2 := by
  refine ⟨f.rest_prune, fun e r => ?_, _, f.nodup_entries.filter _, f.fst_prune, fun e r => ?_⟩
  · rw [find?_prune_eq, Option.filter_eq_some_iff, isReferenced_iff]
  · rw [List.mem_filter, mem_entries, Bool.not_eq_true', ← Bool.not_eq_true, isReferenced_iff]

theorem Rooted.countP_entries (h : f.Rooted c) (hr : f.find? e = some r) :
    f.entries.countP (·.2 = r) = 1 := by
  have hsame : f.entries.countP (·.2 = r) = f.entries.count (e, r) := by
    refine List.countP_congr fun ⟨e', r'⟩ hmem => ?_
    have he' := (h.placed (mem_entries.1 hmem)).2
    have he := (h.placed hr).2
    simp only [decide_eq_true_eq, beq_iff_eq, Prod.mk.injEq]
    refine ⟨fun hr' => ⟨?_, hr'⟩, And.right⟩
    rw [← he', ← he, hr']
  rw [hsame]
  exact List.count_eq_one_of_mem f.nodup_entries (mem_entries.2 hr)

theorem Coherent.references_pos_iff (h : f.Coherent) (hx : f.selection? b = some x) :
    0 < x.references r ↔ r ∈ x.members := by
  cases x with
  | grouped g => exact List.count_pos_iff
  | ranked k =>
    have ht := h b k hx
    have hqueue : 0 < k.queue.toList.count r ↔ r ∈ k.queue.toList := List.count_pos_iff
    have hindex : 0 < k.queue.index.toList.countP (·.1 = r) ↔ r ∈ k.queue.toList := by
      rw [IndexedHeap.toList, Array.mem_toList_iff, ← ht.indexed.contains_iff,
        IndexedHeap.contains, Std.HashMap.contains_eq_isSome_getElem?, Option.isSome_iff_exists,
        List.countP_pos_iff]
      constructor
      · rintro ⟨⟨r', places⟩, hmem, hr⟩
        obtain rfl : r' = r := of_decide_eq_true hr
        exact ⟨places, Std.HashMap.mem_toList_iff_getElem?_eq_some.1 hmem⟩
      · rintro ⟨places, hplaces⟩
        exact ⟨(r, places), Std.HashMap.mem_toList_iff_getElem?_eq_some.2 hplaces,
          decide_eq_true rfl⟩
    have hmembers : 0 < k.members.toList.countP (·.2 = r) ↔ r ∈ k.queue.toList := by
      rw [List.countP_pos_iff]
      constructor
      · rintro ⟨⟨e, r'⟩, hmem, hr⟩
        obtain rfl : r' = r := of_decide_eq_true hr
        exact ((ht.members e r').1 (Std.HashMap.mem_toList_iff_getElem?_eq_some.1 hmem)).1
      · intro hr
        exact ⟨(_, r), Std.HashMap.mem_toList_iff_getElem?_eq_some.2 (ht.member hr),
          decide_eq_true rfl⟩
    change 0 < _ + _ + _ ↔ r ∈ k.queue.toList
    rw [← hqueue] at hindex hmembers ⊢
    omega

/-- A state that the directory lists has another reference exactly if someone holds it. -/
theorem Rooted.one_lt_references_iff (h : f.Rooted c) (hr : f.find? e = some r) :
    1 < f.references r ↔ ∃ x, f.Holds x r := by
  have hout : 0 < f.held.count r ↔ f.Holds .outside r := List.count_pos_iff
  have htasks : 0 < f.tickets.countP (·.load = r) ↔ ∃ i, f.Holds (.task i) r := by
    rw [List.countP_pos_iff, ← List.any_eq_true]
    exact any_load_iff
  have hmembers : 0 < ((List.range f.seats.size).map fun b =>
      if f.isAlive b then (f.selection? b).elim 0 (·.references r) else 0).sum ↔
        ∃ b, f.Holds (.balancer b) r := by
    rw [List.sum_pos_iff_exists_pos_nat]
    simp only [List.mem_map, List.mem_range, exists_exists_and_eq_and]
    refine exists_congr fun b => ?_
    by_cases hb : f.isAlive b = true
    · rw [if_pos hb]
      cases hx : f.selection? b with
      | none => simp [Holds, hx]
      | some x =>
        simp only [Option.elim_some, h.coherent.references_pos_iff hx]
        simp only [Holds, hb, hx, lt_size_of_selection? hx, true_and, Option.some.injEq,
          exists_eq_left']
    · simp [Holds, hb]
  rw [references, h.countP_entries hr, exists_holds_iff, ← hout, ← htasks, ← hmembers]
  omega

theorem Installs.mem_members {d : Directory} (h : Installs b states f f')
    (hres : d.Resolved f.loads es states) (hx : f'.selection? b = some x) (hr : r ∈ x.members) :
    r ∈ states := by
  rw [h.selection?, if_pos rfl] at hx
  obtain ⟨y, -, rfl⟩ := Option.map_eq_some_iff.1 hx
  exact Selection.mem_states_of_mem_refilled hres.apart hr

theorem Installs.isAlive (h : Installs b states f f') (b' : Nat) :
    f'.isAlive b' = f.isAlive b' := by
  rw [Bool.eq_iff_iff, isAlive_iff, isAlive_iff]
  simp only [h.handles, h.stub?]

theorem Installs.holds (h : Installs b states f f') {x : Holder} (hx : x ≠ .balancer b) :
    f'.Holds x r ↔ f.Holds x r := by
  cases x with
  | task i => simp only [Holds, h.stub?]
  | outside => rw [Holds, Holds, h.rest]
  | balancer b' =>
    have hb : b ≠ b' := fun hb => hx (hb ▸ rfl)
    simp only [Holds, h.isAlive, h.selection?, if_neg hb]

theorem Resolves.holds (h : Resolves c es states f f') (x : Holder) :
    f'.Holds x r ↔ f.Holds x r := by
  rw [h.rest]
  cases x <;> rfl

theorem holds_prune (f : Fleet) (x : Holder) : f.prune.2.Holds x r ↔ f.Holds x r := by
  rw [rest_prune]
  cases x <;> rfl

theorem Rooted.reassigned (h : f.Rooted c) (hok : f.update b es = .ok f') :
    Reassigned b es f f' := by
  obtain ⟨states, f₁, hres, rfl⟩ := h.update_cases hok
  obtain ⟨d, hd, hstates⟩ := hres.resolved
  have hi := f₁.installs b states
  have hrooted := hres.rooted_install b
  generalize f₁.install b states = f₂ at hi hrooted
  have hloads : f₂.prune.2.loads = f₁.loads := (loads_prune f₂).trans (by rw [hi.rest])
  have hkept := f₂.forgets_prune.kept
  refine ⟨fun r hr => ?_, fun x r hx => ?_, fun r hr => ?_, fun halive x hx hpos e he => ?_,
    fun e r hr => ?_, fun e r hr => ?_⟩
  · rw [hloads]
    exact hres.grows.loads r hr
  · rw [holds_prune, hi.holds hx, hres.holds]
  · obtain ⟨-, x, hx, hr⟩ := (holds_prune f₂ _).1 hr
    rw [LoadTable.endpoint, hloads]
    exact (hstates.find?_endpoint (hi.mem_members hstates hx hr)).2
  · obtain ⟨r, hr, hfind⟩ := hstates.exists_state he
    have hx' := hx
    rw [selection?_prune, hi.selection?, if_pos rfl] at hx'
    obtain ⟨y, -, rfl⟩ := Option.map_eq_some_iff.1 hx'
    refine ⟨r, ⟨halive, _, hx, Selection.mem_refilled_of_mem hstates.apart hpos hr⟩, ?_⟩
    rw [hloads]
    exact (hstates.lists e r hfind).2
  · have hlisted : f₂.find? e = some r := by
      rw [hi.rest]
      exact hres.found e r hr
    simp only [hkept, hlisted, holds_prune, true_and]
  · obtain ⟨-, x, hx⟩ := (hkept e r).1 hr
    exact ⟨x, (holds_prune f₂ x).2 hx⟩

theorem Resolves.arrives (h : Resolves c es states f f') (hr : f'.find? e = some r) :
    f.find? e = some r ∨
      f.find? e = none ∧ EndpointLoad.create e c f.now = .ok (f'.loads.load r) :=
  (h.enters e r hr).imp_right fun hnew => ⟨hnew.1, hnew.2.2⟩

theorem Rooted.arrives (h : f.Rooted c) {d : Deed} (hd : Allowed f d)
    (hr : (f.perform d).find? e = some r) : f.find? e = some r ∨
      f.find? e = none ∧ EndpointLoad.create e c f.now = .ok ((f.perform d).loads.load r) := by
  have heffect := h.effect hd
  generalize f.perform d = f' at heffect hr
  have hstill : f'.directory = f.directory → f.find? e = some r := fun hdir => by
    rw [find?, hdir] at hr
    exact hr
  cases heffect with
  | shifts _ hs => exact .inl (hstill hs.directory)
  | @keeps b t _ _ => exact .inl (hstill (h.coherent.shifts_next b).1.directory)
  | resolves hres => exact hres.arrives hr
  | holds hres => exact hres.arrives hr
  | @builds s strategy listeners es b f' hok =>
    obtain ⟨telemetry, states, f₁, -, hres, rfl, rfl⟩ := h.build_cases hok
    have hi := (f₁.seat (some ⟨strategy.selection s, telemetry, listeners⟩)).2.installs
      f.seats.size states
    rw [rest_publish, hi.rest] at hr
    rw [loads_publish, hi.rest]
    exact hres.arrives hr
  | @updates b es _ hok =>
    obtain ⟨states, f₁, hres, rfl⟩ := h.update_cases hok
    have hi := f₁.installs b states
    rw [find?_prune_eq, Option.filter_eq_some_iff, hi.rest] at hr
    rw [loads_prune, hi.rest]
    exact hres.arrives hr.1
  | drops _ hf => exact .inl (hstill hf.directory)
  | prunes =>
    rw [find?_prune_eq, Option.filter_eq_some_iff] at hr
    exact .inl hr.1

/-- At every point of a run all who hold a state of one endpoint hold the same state, the one that
the directory lists. Pruning forgets exactly the entries whose states nobody holds, those to which
the directory has the only reference; so does giving a balancer new endpoints, once it has let go
of its old members. A state is made only for an endpoint none of whose states is held. -/
theorem Runs.held_stays_listed {past : List (Fleet × Deed)} (h : Runs Allowed start past f)
    (hstart : start.Blank c) :
    (∀ x r, f.Holds x r → f.find? (f.loads.endpoint r) = some r) ∧
    (∀ x x' r r', f.Holds x r → f.Holds x' r' → f.loads.endpoint r = f.loads.endpoint r' →
      r = r') ∧
    (∀ e r, f.find? e = some r → (1 < f.references r ↔ ∃ x, f.Holds x r)) ∧
    Forgets f f.prune.1 f.prune.2 ∧
    (∀ b es f', f.update b es = .ok f' → Reassigned b es f f') ∧
    ∀ d e r, Allowed f d → (f.perform d).find? e = some r → f.find? e ≠ some r →
      (∀ x s, f.Holds x s → f.loads.endpoint s ≠ e) ∧
        EndpointLoad.create e c f.now = .ok ((f.perform d).loads.load r) := by
  have hrooted := h.rooted hstart
  have hlisted := hrooted.listed
  refine ⟨hlisted, fun x x' r r' hr hr' he => ?_, fun e r hr => hrooted.one_lt_references_iff hr,
    f.forgets_prune, fun b es f' hok => hrooted.reassigned hok, fun d e r hd hr hnew => ?_⟩
  · have hr := hlisted x r hr
    rw [he, hlisted x' r' hr'] at hr
    exact (Option.some.inj hr).symm
  · obtain ⟨hnone, hl⟩ := (hrooted.arrives hd hr).resolve_left hnew
    refine ⟨fun x s hs he => ?_, hl⟩
    have hs := hlisted x s hs
    rw [he, hnone] at hs
    cases hs

/-- Of two states that are made one is held, and the directory has the only reference to the
other. -/
theorem Runs.held_stays_listed_of_two :
    ∃ (start f : Fleet) (past : List (Fleet × Deed)), start.Blank {} ∧ Runs Allowed start past f ∧
      f.find? ⟨1⟩ = some ⟨0⟩ ∧ f.find? ⟨2⟩ = some ⟨1⟩ ∧ 1 < f.references ⟨0⟩ ∧
      ¬ 1 < f.references ⟨1⟩ ∧ Forgets f f.prune.1 f.prune.2 := by
  obtain ⟨start, hstart, -⟩ := exists_blank {}
  obtain ⟨l, hl⟩ := EndpointLoad.exists_create (s := {}) (by decide) ⟨1⟩ start.clock.now
  obtain ⟨l', hl'⟩ := EndpointLoad.exists_create (s := {}) (by decide) ⟨2⟩ start.clock.now
  have hhold : start.perform (.hold ⟨1⟩) = { start with
      directory := some ⟨{}, Std.HashMap.insert {} ⟨1⟩ ⟨0⟩⟩, loads := ⟨#[l]⟩, held := [⟨0⟩] } := by
    simp [perform, getOrCreate, Directory.getOrCreate, Directory.find?, hstart.directory,
      hstart.loads, hstart.held, now, hl, bind, Except.bind, pure, Except.pure, hold,
      LoadTable.insert]
  have hboth : (start.perform (.hold ⟨1⟩)).perform (.resolve [⟨2⟩]) = { start with
      directory := some ⟨{}, Std.HashMap.insert (Std.HashMap.insert {} ⟨1⟩ ⟨0⟩) ⟨2⟩ ⟨1⟩⟩
      loads := ⟨#[l, l']⟩
      held := [⟨0⟩] } := by
    rw [hhold]
    simp [perform, resolve, Directory.resolve, Directory.getOrCreate, Directory.find?, now, hl',
      bind, Except.bind, pure, Except.pure, LoadTable.insert]
  have hrun := ((@Runs.start Allowed start).step (.hold ⟨1⟩) trivial).step
    (.resolve [⟨2⟩]) trivial
  obtain ⟨-, -, hreferences, hprune, -⟩ := hrun.held_stays_listed hstart
  rw [hboth] at hrun hreferences hprune
  generalize hf : (Fleet.mk _ _ _ _ _ _ _ _ _ _ _) = f at hrun hreferences hprune
  have hfirst : f.find? ⟨1⟩ = some ⟨0⟩ := by
    simp [← hf, find?, Directory.find?, Std.HashMap.getElem_insert]
  have hsecond : f.find? ⟨2⟩ = some ⟨1⟩ := by simp [← hf, find?, Directory.find?]
  refine ⟨start, f, _, hstart, hrun, hfirst, hsecond, ?_, ?_, hprune⟩
  · exact (hreferences _ _ hfirst).2 ⟨.outside, by simp [← hf, Holds]⟩
  · rw [hreferences _ _ hsecond]
    rintro ⟨x, hx⟩
    cases x with
    | task i => simp [← hf, Holds, stub?, task?, hstart.tasks] at hx
    | balancer b => simp [← hf, Holds, selection?, balancer?, hstart.seats] at hx
    | outside => simp [← hf, Holds] at hx

end Fleet

end LeastLoad
