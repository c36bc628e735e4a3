import LeastLoad.Proofs.Fleet.Runs
import LeastLoad.Proofs.Fleet.Shifts

/-! # States that someone holds

A state is held by a task that is kept, by a living balancer whose member it is, or from outside. A
fleet is rooted when the directory lists each state that someone holds as the one of its endpoint.
What only moves loads keeps a fleet rooted, since it leaves the holders alone; what makes new
holders takes the states from the directory; and forgetting spares what is held. -/

namespace LeastLoad

namespace Directory

open LoadTable

variable {d d' d'' : Directory} {t t' t'' : LoadTable} {now : Nat} {e : Endpoint} {r : LoadRef}

/-- Each entry was there before, or is that of a state made at `now` for an endpoint that had no
entry. -/
def Enters (now : Nat) (d : Directory) (t : LoadTable) (d' : Directory) (t' : LoadTable) : Prop :=
  ∀ e r, d'.find? e = some r → d.find? e = some r ∨
    d.find? e = none ∧ t.states.size ≤ r.place ∧
      EndpointLoad.create e d.settings now = .ok (t'.load r)

theorem Enters.refl : Enters now d t d t := fun _ _ h => .inl h

theorem Enters.trans (h : Enters now d t d' t') (hext : Extends now d t d' t')
    (hl : d'.Lists t') (h' : Enters now d' t' d'' t'') (hext' : Extends now d' t' d'' t'') :
    Enters now d t d'' t'' := by
  intro e r hr
  obtain hr' | ⟨hnone, hplace, hl'⟩ := h' e r hr
  · refine (h e r hr').imp_right fun ⟨hnone, hplace, hmade⟩ => ⟨hnone, hplace, ?_⟩
    rw [hext'.grows.loads r (hl e r hr').1]
    exact hmade
  · refine .inr ⟨?_, hext.grows.size.trans hplace, hext.settings ▸ hl'⟩
    refine Option.eq_none_iff_forall_ne_some.2 fun r' hr' => ?_
    rw [hext.found e r' hr'] at hnone
    cases hnone

theorem getOrCreate_enters (hok : d.getOrCreate t now e = .ok (r, d', t')) :
    Enters now d t d' t' := by
  rw [getOrCreate] at hok
  split at hok
  · cases hok
    exact .refl
  · next hfind =>
    simp only [bind, Except.bind, pure, Except.pure] at hok
    split at hok
    · cases hok
    · next l hl =>
      cases hok
      intro e' r' hr'
      rw [find?_register] at hr'
      split at hr'
      · next he =>
        subst he
        obtain rfl := Option.some.inj hr'
        refine .inr ⟨hfind, le_rfl, ?_⟩
        have hload : (t.insert l).2.load (t.insert l).1 = l :=
          (load_insert t l _).trans (if_pos rfl)
        rw [hload]
        exact hl
      · exact .inl hr'

theorem resolve_enters {es : List Endpoint} {rs : List LoadRef} (h : d.Lists t)
    (hok : d.resolve t now es = .ok (rs, d', t')) : Enters now d t d' t' := by
  induction es generalizing d t rs d' t' with
  | nil =>
    cases hok
    exact .refl
  | cons e es ih =>
    simp only [resolve, bind, Except.bind, pure, Except.pure] at hok
    split at hok
    · cases hok
    · next x hx =>
      obtain ⟨r, d₁, t₁⟩ := x
      obtain ⟨h₁, hext₁, -⟩ := getOrCreate_spec h hx
      simp only at hok
      split at hok
      · cases hok
      · next y hy =>
        obtain ⟨rs₂, d₂, t₂⟩ := y
        cases hok
        exact (getOrCreate_enters hx).trans hext₁ h₁ (ih h₁ hy) (resolve_spec h₁ hy).1

end Directory

namespace Selection

def refilled (t : LoadTable) (states : List LoadRef) : Selection → Selection
  | grouped g => grouped (.layout g.maxGroup states)
  | ranked k => ranked (k.replace t states)

theorem mem_states_of_mem_refilled {t : LoadTable} {states : List LoadRef} {x : Selection}
    {r : LoadRef} (hs : t.Apart states) (hr : r ∈ (x.refilled t states).members) : r ∈ states := by
  cases x with
  | grouped g =>
    change r ∈ (Grouping.layout g.maxGroup states).groups.items.flatten at hr
    rcases Nat.eq_zero_or_pos g.maxGroup with hz | hpos
    · rw [hz] at hr
      cases hr
    · rwa [Grouping.items_layout, flatten_slices_partition _ hpos] at hr
  | ranked k => exact ((Ranking.Tidy.replace hs).2 r).1 (Multiset.mem_coe.2 hr)

end Selection

namespace Fleet

variable {f f' : Fleet} {b : Nat} {r : LoadRef} {c : LoadSettings} {d : Directory}
  {es : List Endpoint} {states : List LoadRef}

inductive Holder where
  | task (i : Nat)
  | balancer (b : Nat)
  | outside

/-- A balancer holds its members as long as its handle or one of its tasks is kept. -/
def Holds (f : Fleet) : Holder → LoadRef → Prop
  | .task i, r => ∃ b, f.stub? i = some (r, b)
  | .balancer b, r => f.isAlive b = true ∧ ∃ x, f.selection? b = some x ∧ r ∈ x.members
  | .outside, r => r ∈ f.held

theorem mem_tickets_iff {t : Ticket} :
    t ∈ f.tickets ↔ ∃ i, (f.task? i >>= Task.ticket?) = some t := by
  simp only [tickets, List.mem_filterMap, Array.mem_toList_iff, Array.mem_iff_getElem?, task?]
  constructor
  · rintro ⟨place, ⟨i, hi⟩, ht⟩
    refine ⟨i, ?_⟩
    rw [hi]
    exact ht
  · rintro ⟨i, ht⟩
    cases hi : f.tasks[i]? with
    | none =>
      rw [hi] at ht
      cases ht
    | some place =>
      rw [hi] at ht
      exact ⟨place, ⟨i, hi⟩, ht⟩

theorem any_tickets_iff {p : LoadRef × Nat → Prop} [DecidablePred p] :
    f.tickets.any (fun t => p (t.load, t.balancer)) = true ↔ ∃ i s, f.stub? i = some s ∧ p s := by
  rw [List.any_eq_true]
  constructor
  · rintro ⟨t, ht, hp⟩
    obtain ⟨i, hi⟩ := mem_tickets_iff.1 ht
    exact ⟨i, _, congrArg (Option.map _) hi, of_decide_eq_true hp⟩
  · rintro ⟨i, s, hs, hp⟩
    obtain ⟨t, ht, rfl⟩ := Option.map_eq_some_iff.1 hs
    exact ⟨t, mem_tickets_iff.2 ⟨i, ht⟩, decide_eq_true hp⟩

theorem isAlive_iff :
    f.isAlive b = true ↔ f.isHeld b = true ∨ ∃ i s, f.stub? i = some s ∧ s.2 = b := by
  rw [isAlive, Bool.or_eq_true]
  exact or_congr_right (any_tickets_iff (p := fun s => s.2 = b))

theorem lt_size_of_selection? {x : Selection} (h : f.selection? b = some x) :
    b < f.seats.size := by
  refine Nat.lt_of_not_le fun hle => ?_
  rw [selection?, balancer?, Array.getElem?_eq_none hle] at h
  cases h

theorem lt_size_of_isHeld (h : f.isHeld b = true) : b < f.seats.size := by
  refine Nat.lt_of_not_le fun hle => ?_
  rw [isHeld, Array.getElem?_eq_none hle] at h
  cases h

theorem any_selection_iff {p : Selection → Bool} :
    (f.balancer? b).any (fun x => p x.selection) = true ↔
      ∃ x, f.selection? b = some x ∧ p x = true := by
  rw [selection?]
  cases f.balancer? b <;> simp

theorem any_load_iff : f.tickets.any (·.load = r) = true ↔ ∃ i, f.Holds (.task i) r := by
  refine (any_tickets_iff (p := fun s => s.1 = r)).trans ⟨?_, ?_⟩
  · rintro ⟨i, s, hs, rfl⟩
    exact ⟨i, s.2, hs⟩
  · rintro ⟨i, b, hs⟩
    exact ⟨i, _, hs, rfl⟩

theorem exists_holds_iff : (∃ x, f.Holds x r) ↔
    f.Holds .outside r ∨ (∃ i, f.Holds (.task i) r) ∨ ∃ b, f.Holds (.balancer b) r := by
  constructor
  · rintro ⟨x, hx⟩
    cases x with
    | outside => exact .inl hx
    | task i => exact .inr (.inl ⟨i, hx⟩)
    | balancer b => exact .inr (.inr ⟨b, hx⟩)
  · rintro (hx | ⟨i, hx⟩ | ⟨b, hx⟩)
    exacts [⟨_, hx⟩, ⟨_, hx⟩, ⟨_, hx⟩]

theorem isReferenced_iff : f.isReferenced r = true ↔ ∃ x, f.Holds x r := by
  have hmember : ((List.range f.seats.size).any fun b =>
      f.isAlive b && (f.balancer? b).any (·.selection.holds r)) = true ↔
        ∃ b, f.Holds (.balancer b) r := by
    rw [List.any_eq_true]
    refine exists_congr fun b => ?_
    rw [Bool.and_eq_true, any_selection_iff (p := (·.holds r)), List.mem_range]
    simp only [Selection.holds, List.contains_iff_mem]
    exact ⟨And.right, fun h => ⟨lt_size_of_selection? h.2.choose_spec.1, h⟩⟩
  rw [isReferenced, Bool.or_eq_true, Bool.or_eq_true, List.contains_iff_mem, any_load_iff, hmember,
    or_assoc, exists_holds_iff]
  rfl

theorem Shifts.isAlive (h : Shifts f f') (b : Nat) : f'.isAlive b = f.isAlive b := by
  rw [Bool.eq_iff_iff, isAlive_iff, isAlive_iff, h.handles]
  simp only [h.stubs]

theorem Shifts.holds (h : Shifts f f') (x : Holder) : f'.Holds x r ↔ f.Holds x r := by
  cases x with
  | task i => simp only [Holds, h.stubs]
  | outside => simp only [Holds, h.outside]
  | balancer b =>
    simp only [Holds, h.isAlive]
    refine and_congr_right fun _ => ?_
    have hb := h.selections b
    generalize f.selection? b = y, f'.selection? b = y' at hb
    cases hb with
    | none => rfl
    | some hs => simp [hs.mem_members]

/-- The directory lists each state that someone holds, and all states are of one kind. -/
structure Rooted (f : Fleet) (c : LoadSettings) : Prop where
  coherent : f.Coherent
  registered : ∃ d, f.directory = some d ∧ d.settings = c ∧ d.Lists f.loads
  listed : ∀ x r, f.Holds x r → f.find? (f.loads.endpoint r) = some r
  kinds : ∀ r : LoadRef, r.place < f.loads.states.size → (f.loads.load r).kind = c.subStrategy

theorem Rooted.placed (h : f.Rooted c) {e : Endpoint} (hr : f.find? e = some r) :
    r.place < f.loads.states.size ∧ f.loads.endpoint r = e := by
  obtain ⟨d, hd, -, hl⟩ := h.registered
  rw [find?, hd] at hr
  exact hl e r hr

theorem Rooted.shifts (h : f.Rooted c) (hs : Shifts f f') : f'.Rooted c := by
  obtain ⟨d, hd, hc, hl⟩ := h.registered
  refine ⟨hs.coherent, ⟨d, hs.directory.trans hd, hc, fun e r hr => ?_⟩, fun x r hr => ?_,
    fun r hr => ?_⟩
  · rw [hs.loads.size, hs.loads.endpoint]
    exact hl e r hr
  · rw [find?, hs.directory, hs.loads.endpoint]
    exact h.listed x r ((hs.holds x).1 hr)
  · rw [hs.loads.kind]
    rw [hs.loads.size] at hr
    exact h.kinds r hr

theorem Rooted.of_holds (h : f.Rooted c) (hd : f'.directory = f.directory)
    (hl : f'.loads = f.loads) (hs : ∀ b, f'.selection? b = f.selection? b)
    (hh : ∀ x r, f'.Holds x r → f.find? (f.loads.endpoint r) = some r) : f'.Rooted c := by
  refine ⟨fun b k hk => ?_, ?_, fun x r hr => ?_, ?_⟩
  · rw [hl]
    exact h.coherent b k ((hs b).symm.trans hk)
  · rw [hd, hl]
    exact h.registered
  · rw [find?, hd, hl]
    exact hh x r hr
  · rw [hl]
    exact h.kinds

theorem stub?_keep (f : Fleet) (t : Task) (i : Nat) :
    (f.keep t).2.stub? i =
      if i = f.tasks.size then t.ticket?.map fun t => (t.load, t.balancer) else f.stub? i := by
  simp only [stub?, task?, keep, Array.getElem?_push]
  split <;> rfl

theorem Rooted.keep (h : f.Rooted c) {t : Ticket} {x : Selection} (hb : f.isHeld t.balancer = true)
    (hx : f.selection? t.balancer = some x) (hr : t.load ∈ x.members) :
    (f.keep (.tracked t)).2.Rooted c := by
  have halive : f.isAlive t.balancer = true := isAlive_iff.2 (.inl hb)
  have hmember : f.Holds (.balancer t.balancer) t.load := ⟨halive, x, hx, hr⟩
  refine h.of_holds rfl rfl (fun _ => rfl) fun y r hy => ?_
  cases y with
  | outside => exact h.listed .outside r hy
  | task i =>
    obtain ⟨b, hi⟩ := hy
    rw [stub?_keep] at hi
    split at hi
    · obtain ⟨rfl, -⟩ := Prod.mk.inj (Option.some.inj hi)
      exact h.listed _ _ hmember
    · exact h.listed (.task i) r ⟨b, hi⟩
  | balancer b =>
    obtain ⟨hb', y, hy, hr'⟩ := hy
    refine h.listed (.balancer b) r ⟨?_, y, hy, hr'⟩
    rw [isAlive_iff] at hb' ⊢
    refine hb'.elim .inl ?_
    rintro ⟨i, s, hs, rfl⟩
    rw [stub?_keep] at hs
    split at hs
    · obtain rfl := Option.some.inj hs
      exact .inl hb
    · exact .inr ⟨i, s, hs, rfl⟩

structure Fewer (f f' : Fleet) : Prop where
  directory : f'.directory = f.directory
  loads : f'.loads = f.loads
  selections : ∀ b, f'.selection? b = f.selection? b
  outside : ∀ r ∈ f'.held, r ∈ f.held
  handles : ∀ b, f'.isHeld b = true → f.isHeld b = true
  stubs : ∀ i s, f'.stub? i = some s → f.stub? i = some s

theorem Fewer.holds (h : Fewer f f') {x : Holder} (hr : f'.Holds x r) : f.Holds x r := by
  cases x with
  | task i =>
    obtain ⟨b, hi⟩ := hr
    exact ⟨b, h.stubs i _ hi⟩
  | outside => exact h.outside r hr
  | balancer b =>
    obtain ⟨hb, x, hx, hr⟩ := hr
    refine ⟨?_, x, (h.selections b).symm.trans hx, hr⟩
    rw [isAlive_iff] at hb ⊢
    exact hb.imp (h.handles b) fun ⟨i, s, hi, hsb⟩ => ⟨i, s, h.stubs i s hi, hsb⟩

theorem Rooted.fewer (h : f.Rooted c) (hf : Fewer f f') : f'.Rooted c :=
  h.of_holds hf.directory hf.loads hf.selections fun x r hr => h.listed x r (hf.holds hr)

theorem fewer_dropTask (f : Fleet) (i : Nat) : Fewer f (f.dropTask i).2 := by
  refine ⟨rfl, rfl, fun _ => rfl, fun _ hr => hr, fun _ hb => hb, fun j s hs => ?_⟩
  simp only [dropTask, stub?, task?, Array.getElem?_modify] at hs ⊢
  split at hs
  · cases hj : f.tasks[j]? <;> simp [hj] at hs
  · exact hs

theorem fewer_dropBalancer (f : Fleet) (b : Nat) : Fewer f (f.dropBalancer b).2 := by
  refine ⟨rfl, rfl, fun b' => ?_, fun _ hr => hr, fun b' hb' => ?_, fun _ _ hs => hs⟩
  · simp only [dropBalancer, selection?, balancer?, Array.getElem?_modify]
    split
    · cases f.seats[b']? <;> rfl
    · rfl
  · simp only [dropBalancer, isHeld, Array.getElem?_modify] at hb' ⊢
    split at hb'
    · cases hseat : f.seats[b']? <;> rw [hseat] at hb' <;> cases hb'
    · exact hb'

theorem fewer_letGo (f : Fleet) (e : Endpoint) : Fewer f (f.letGo e) :=
  ⟨rfl, rfl, fun _ => rfl, fun _ hr => List.mem_of_mem_filter hr, fun _ hb => hb, fun _ _ hs => hs⟩

structure Resolves (c : LoadSettings) (es : List Endpoint) (states : List LoadRef) (f f' : Fleet) :
    Prop where
  rooted : f'.Rooted c
  rest : f' = { f with directory := f'.directory, loads := f'.loads }
  resolved : ∃ d, f'.directory = some d ∧ d.Resolved f'.loads es states
  grows : f.loads.Grows c f.now f'.loads
  found : ∀ e r, f.find? e = some r → f'.find? e = some r
  enters : ∀ e r, f'.find? e = some r → f.find? e = some r ∨ f.find? e = none ∧
    f.loads.states.size ≤ r.place ∧ EndpointLoad.create e c f.now = .ok (f'.loads.load r)

theorem Rooted.resolve (h : f.Rooted c) (hok : f.resolve es = .ok (states, f')) :
    Resolves c es states f f' := by
  obtain ⟨d, hd, rfl, hl⟩ := h.registered
  have henters : ∃ d' t, f' = { f with directory := some d', loads := t } ∧
      Directory.Extends f.now d f.loads d' t ∧ d'.Resolved t es states ∧
      Directory.Enters f.now d f.loads d' t := by
    simp only [Fleet.resolve, hd, bind, Except.bind, pure, Except.pure] at hok
    split at hok
    · cases hok
    · next x hx =>
      obtain ⟨rs, d', t⟩ := x
      obtain ⟨hext, hres⟩ := Directory.resolve_spec hl hx
      cases hok
      exact ⟨d', t, rfl, hext, hres, Directory.resolve_enters hl hx⟩
  obtain ⟨d', t, rfl, hext, hres, henters⟩ := henters
  have hfind : ∀ e, f.find? e = d.find? e := fun e => by
    rw [find?, hd]
    rfl
  refine ⟨⟨fun b k hk => (h.coherent b k hk).grows hext.grows, ⟨d', rfl, hext.settings, hres.lists⟩,
    fun x r hr => ?_, fun r hr => ?_⟩, rfl, ⟨d', rfl, hres⟩, hext.grows, fun e r hr => ?_,
    fun e r hr => ?_⟩
  · have hlisted := h.listed x r hr
    have hend : t.endpoint r = f.loads.endpoint r :=
      congrArg EndpointLoad.endpoint (hext.grows.loads r (h.placed hlisted).1)
    change d'.find? (t.endpoint r) = some r
    rw [hend]
    exact hext.found _ r ((hfind _).symm.trans hlisted)
  · change (t.load r).kind = _
    by_cases hlt : r.place < f.loads.states.size
    · rw [hext.grows.loads r hlt]
      exact h.kinds r hlt
    · obtain ⟨e, he⟩ := hext.grows.fresh r (Nat.not_lt.1 hlt) hr
      exact EndpointLoad.kind_create he
  · exact hext.found e r ((hfind e).symm.trans hr)
  · rw [hfind]
    exact henters e r hr

theorem exists_foldl_watchers (step : Fleet → LoadRef → Fleet)
    (hstep : ∀ f r, ∃ W, step f r = { f with watchers := W }) (rs : List LoadRef) (f : Fleet) :
    ∃ W, rs.foldl step f = { f with watchers := W } := by
  induction rs generalizing f with
  | nil => exact ⟨f.watchers, rfl⟩
  | cons r rs ih =>
    obtain ⟨W, hW⟩ := hstep f r
    obtain ⟨W', hW'⟩ := ih { f with watchers := W }
    exact ⟨W', by rw [List.foldl_cons, hW, hW']⟩

/-- The balancer at a place has become one over the given states, and who watches what may have
changed. -/
structure Installs (b : Nat) (states : List LoadRef) (f f' : Fleet) : Prop where
  rest : f' = { f with seats := f'.seats, watchers := f'.watchers }
  places : f'.seats.size = f.seats.size
  handles : ∀ b', f'.isHeld b' = f.isHeld b'
  balancer? : ∀ b', f'.balancer? b' = if b = b' then
    (f.balancer? b').map fun x => { x with selection := x.selection.refilled f.loads states }
    else f.balancer? b'

theorem installs (f : Fleet) (b : Nat) (states : List LoadRef) :
    Installs b states f (f.install b states) := by
  have hset : ∀ (f₁ : Fleet) (x : Balancer) (W : Std.HashMap LoadRef (List Nat)),
      f₁ = { f with watchers := f₁.watchers } → f.balancer? b = some x →
      Installs b states f { f₁.setBalancer b { x with
        selection := x.selection.refilled f.loads states } with watchers := W } := by
    intro f₁ x W hf₁ hx
    rw [hf₁]
    refine ⟨rfl, places_modifyBalancer _ _ _, fun b' => isHeld_modifyBalancer _ _ _ _,
      fun b' => (balancer?_modifyBalancer _ _ _ _).trans ?_⟩
    split
    · next hb =>
      subst hb
      change (f.balancer? b).map _ = _
      rw [hx]
      rfl
    · rfl
  rw [install]
  split
  · next hnone =>
    refine ⟨rfl, rfl, fun _ => rfl, fun b' => ?_⟩
    split
    · next hb => rw [← hb, hnone]; rfl
    · rfl
  · next x hx =>
    split
    · next g hg =>
      have hrefilled :
          x.selection.refilled f.loads states = .grouped (.layout g.maxGroup states) := by
        rw [hg]
        rfl
      rw [← hrefilled]
      exact hset f x f.watchers rfl hx
    · next k hk =>
      obtain ⟨W, hW⟩ := exists_foldl_watchers (watch · b) (fun _ _ => ⟨_, rfl⟩) states f
      dsimp only
      rw [hW]
      obtain ⟨W', hW'⟩ := exists_foldl_watchers (unwatch · b) (fun _ _ => ⟨_, rfl⟩)
        (k.departed f.loads states) (setBalancer { f with watchers := W } b
          { x with selection := .ranked (k.replace f.loads states) })
      rw [hW']
      have hrefilled :
          x.selection.refilled f.loads states = .ranked (k.replace f.loads states) := by
        rw [hk]
        rfl
      rw [← hrefilled]
      exact hset { f with watchers := W } x W' rfl hx

theorem Installs.selection? (h : Installs b states f f') (b' : Nat) :
    f'.selection? b' = if b = b' then (f.selection? b').map (·.refilled f.loads states)
      else f.selection? b' := by
  rw [Fleet.selection?, h.balancer?]
  split
  · simp only [Fleet.selection?, Option.map_map]
    rfl
  · rfl

theorem Installs.stub? (h : Installs b states f f') (i : Nat) : f'.stub? i = f.stub? i := by
  rw [h.rest]
  rfl

theorem Rooted.install (h : f.Rooted c) (hi : Installs b states f f')
    (hd : f.directory = some d) (hres : d.Resolved f.loads es states) : f'.Rooted c := by
  have hdir : f'.directory = f.directory := by rw [hi.rest]
  have hloads : f'.loads = f.loads := by rw [hi.rest]
  have hsel := hi.selection?
  refine ⟨fun b' k hk => ?_, ?_, fun x r hr => ?_, ?_⟩
  · rw [hloads]
    rw [hsel] at hk
    split at hk
    · obtain ⟨y, hy, hrefilled⟩ := Option.map_eq_some_iff.1 hk
      cases y with
      | grouped g => cases hrefilled
      | ranked k' =>
        obtain rfl := Selection.ranked.inj hrefilled
        exact (Ranking.Tidy.replace hres.apart).1
    · exact h.coherent b' k hk
  · rw [hdir, hloads]
    exact h.registered
  · rw [find?, hdir, hloads]
    change f.find? _ = _
    cases x with
    | task i =>
      obtain ⟨b', hs⟩ := hr
      exact h.listed (.task i) r ⟨b', (hi.stub? i).symm.trans hs⟩
    | outside =>
      refine h.listed .outside r ?_
      rw [hi.rest] at hr
      exact hr
    | balancer b' =>
      obtain ⟨halive, y, hy, hr⟩ := hr
      rw [hsel] at hy
      split at hy
      · obtain ⟨z, -, rfl⟩ := Option.map_eq_some_iff.1 hy
        rw [find?, hd]
        exact (hres.find?_endpoint (Selection.mem_states_of_mem_refilled hres.apart hr)).1
      · refine h.listed (.balancer b') r ⟨?_, y, hy, hr⟩
        rw [isAlive_iff] at halive ⊢
        simpa only [hi.handles, hi.stub?] using halive
  · rw [hloads]
    exact h.kinds

theorem find?_prune_eq (f : Fleet) (e : Endpoint) :
    f.prune.2.find? e = (f.find? e).filter f.isReferenced := by
  rw [prune]
  cases hd : f.directory with
  | none => simp [find?, hd]
  | some d =>
    change (d.prune f.isReferenced).2.find? e = _
    rw [find?_prune, find?, hd]
    rfl

theorem rest_prune (f : Fleet) : f.prune.2 = { f with directory := f.prune.2.directory } := by
  rw [prune]
  cases f.directory <;> rfl

@[simp] theorem loads_prune (f : Fleet) : f.prune.2.loads = f.loads := by rw [rest_prune]

@[simp] theorem selection?_prune (f : Fleet) (b : Nat) :
    f.prune.2.selection? b = f.selection? b := by
  rw [rest_prune]
  rfl

theorem Rooted.prune (h : f.Rooted c) : f.prune.2.Rooted c := by
  obtain ⟨d, hd, hc, hl⟩ := h.registered
  have hprune : f.prune.2 = { f with directory := some (d.prune f.isReferenced).2 } := by
    simp only [Fleet.prune, hd]
  have hfind := f.find?_prune_eq
  rw [hprune] at hfind ⊢
  refine ⟨h.coherent, ⟨_, rfl, hc, fun e r hr => ?_⟩, fun x r hr => ?_, h.kinds⟩
  · rw [find?_prune, Option.filter_eq_some_iff] at hr
    exact hl e r hr.1
  · have hheld : f.isReferenced r = true := isReferenced_iff.2 ⟨x, hr⟩
    rw [hfind]
    change (f.find? (f.loads.endpoint r)).filter f.isReferenced = some r
    rw [h.listed x r hr, Option.filter_some, if_pos hheld]

theorem rest_publish (f : Fleet) (b : Nat) :
    f.publish b = { f with registry := (f.publish b).registry } := by
  rw [publish]
  split <;> rfl

@[simp] theorem loads_publish (f : Fleet) (b : Nat) : (f.publish b).loads = f.loads := by
  rw [rest_publish]

@[simp] theorem selection?_publish (f : Fleet) (b b' : Nat) :
    (f.publish b).selection? b' = f.selection? b' := by
  rw [rest_publish]
  rfl

theorem Rooted.publish (h : f.Rooted c) (b : Nat) : (f.publish b).Rooted c := by
  rw [rest_publish]
  exact ⟨h.coherent, h.registered, h.listed, h.kinds⟩

theorem selection?_seat (f : Fleet) (x : Option Balancer) (b : Nat) :
    (f.seat x).2.selection? b =
      if b = f.seats.size then x.map (·.selection) else f.selection? b := by
  simp only [Fleet.selection?, balancer?, seat, Array.getElem?_push]
  split <;> rfl

theorem Rooted.seat (h : f.Rooted c) {x : Balancer} (hmembers : x.selection.members = [])
    (htidy : ∀ k, x.selection = .ranked k → Ranking.Tidy (f.loads, k)) :
    (f.seat (some x)).2.Rooted c := by
  refine ⟨fun b k hk => ?_, h.registered, fun y r hr => ?_, h.kinds⟩
  · rw [selection?_seat] at hk
    split at hk
    · exact htidy k (Option.some.inj hk)
    · exact h.coherent b k hk
  · cases y with
    | task i => exact h.listed (.task i) r hr
    | outside => exact h.listed .outside r hr
    | balancer b =>
      obtain ⟨halive, y, hy, hr⟩ := hr
      rw [selection?_seat] at hy
      split at hy
      · obtain rfl := Option.some.inj hy
        rw [hmembers] at hr
        cases hr
      · next hb =>
        refine h.listed (.balancer b) r ⟨?_, y, hy, hr⟩
        rw [isAlive_iff, isHeld_seat, if_neg hb] at halive
        exact isAlive_iff.2 halive

theorem Rooted.update_cases (h : f.Rooted c) (hok : f.update b es = .ok f') :
    ∃ states f₁, Resolves c es states f f₁ ∧ f' = (f₁.install b states).prune.2 := by
  simp only [Fleet.update, bind, Except.bind, pure, Except.pure] at hok
  split at hok
  · cases hok
  · next x hx =>
    obtain ⟨states, f₁⟩ := x
    exact ⟨states, f₁, h.resolve hx, (Except.ok.inj hok).symm⟩

theorem Rooted.build_cases (h : f.Rooted c) {selection : Selection} {settings : TelemetrySettings}
    {listeners : List Listener} (hok : f.build selection settings listeners es = .ok (b, f')) :
    ∃ telemetry states f₁, Telemetry.create settings f.sampleSeed f.now = .ok telemetry ∧
      Resolves c es states f f₁ ∧ b = f.seats.size ∧
      f' = ((f₁.seat (some ⟨selection, telemetry, listeners⟩)).2.install b states).publish b := by
  simp only [Fleet.build, bind, Except.bind, pure, Except.pure] at hok
  split at hok
  · cases hok
  · next telemetry htel =>
    split at hok
    · cases hok
    · next x hx =>
      obtain ⟨states, f₁⟩ := x
      have hres := h.resolve hx
      have hb : f₁.seats.size = b := congrArg Prod.fst (Except.ok.inj hok)
      refine ⟨telemetry, states, f₁, htel, hres, ?_, ?_⟩
      · rw [← hb, hres.rest]
      · rw [← hb]
        exact (congrArg Prod.snd (Except.ok.inj hok)).symm

theorem Resolves.rooted_install (h : Resolves c es states f f') (b : Nat) :
    (f'.install b states).Rooted c := by
  obtain ⟨d, hd, hres⟩ := h.resolved
  exact h.rooted.install (f'.installs b states) hd hres

theorem Rooted.update (h : f.Rooted c) (hok : f.update b es = .ok f') : f'.Rooted c := by
  obtain ⟨states, f₁, hres, rfl⟩ := h.update_cases hok
  exact (hres.rooted_install b).prune

theorem Rooted.selection?_build (h : f.Rooted c) {selection : Selection}
    {settings : TelemetrySettings} {listeners : List Listener}
    (hok : f.build selection settings listeners es = .ok (b, f')) :
    b = f.seats.size ∧ ∃ states f₁, Resolves c es states f f₁ ∧ f'.loads = f₁.loads ∧
      f'.selection? b = some (selection.refilled f'.loads states) := by
  obtain ⟨telemetry, states, f₁, -, hres, rfl, rfl⟩ := h.build_cases hok
  have hi := (f₁.seat (some ⟨selection, telemetry, listeners⟩)).2.installs f.seats.size states
  have hsize : f.seats.size = f₁.seats.size := by rw [hres.rest]
  have hloads : ((f₁.seat (some ⟨selection, telemetry, listeners⟩)).2.install f.seats.size
      states).loads = f₁.loads := by
    rw [hi.rest]
    rfl
  refine ⟨rfl, states, f₁, hres, (loads_publish _ _).trans hloads, ?_⟩
  rw [selection?_publish, loads_publish, hi.selection?, if_pos rfl, selection?_seat, if_pos hsize,
    hloads]
  rfl

theorem Rooted.rest_build (h : f.Rooted c) {selection : Selection} {settings : TelemetrySettings}
    {listeners : List Listener} (hok : f.build selection settings listeners es = .ok (b, f')) :
    f'.clock = f.clock ∧ f'.isHeld b = true := by
  obtain ⟨telemetry, states, f₁, -, hres, rfl, rfl⟩ := h.build_cases hok
  have hi := (f₁.seat (some ⟨selection, telemetry, listeners⟩)).2.installs f.seats.size states
  rw [rest_publish]
  constructor
  · change (Fleet.install _ _ _).clock = _
    rw [hi.rest, hres.rest]
    rfl
  · change (Fleet.install _ _ _).isHeld _ = true
    rw [hi.handles, isHeld_seat, if_pos (by rw [hres.rest])]

theorem Rooted.seat_new (h : f.Rooted c) (s : Settings) (strategy : Strategy)
    (telemetry : Telemetry) (listeners : List Listener) :
    (f.seat (some ⟨strategy.selection s, telemetry, listeners⟩)).2.Rooted c := by
  cases strategy with
  | grouped => exact h.seat rfl nofun
  | ranked =>
    refine h.seat rfl fun k hk => ?_
    obtain rfl := Selection.ranked.inj hk
    exact .empty _

theorem Rooted.build (h : f.Rooted c) {s : Settings} {strategy : Strategy}
    {listeners : List Listener}
    (hok : f.build (strategy.selection s) s.telemetry listeners es = .ok (b, f')) :
    f'.Rooted c := by
  obtain ⟨telemetry, states, f₁, -, hres, rfl, rfl⟩ := h.build_cases hok
  obtain ⟨d, hd, hstates⟩ := hres.resolved
  exact ((hres.rooted.seat_new s strategy telemetry listeners).install (Fleet.installs _ _ _) hd
    hstates).publish _

end Fleet

end LeastLoad
