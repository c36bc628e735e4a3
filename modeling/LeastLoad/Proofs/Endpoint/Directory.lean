import LeastLoad.Proofs.Endpoint.Load

/-! # Registered states

A directory lists a state of its own for each endpoint. Resolving endpoints adds states to the
table and entries to the directory, and changes none that are there. -/

namespace LeastLoad

theorem EndpointLoad.endpoint_create {e : Endpoint} {s : LoadSettings} {now : Nat}
    {l : EndpointLoad} (h : EndpointLoad.create e s now = .ok l) : l.endpoint = e := by
  obtain ⟨-, -, hl⟩ := EndpointLoad.create_spec h
  rw [hl]

theorem EndpointLoad.exists_create {s : LoadSettings} (h : 0 < s.windows) (e : Endpoint)
    (now : Nat) : ∃ l, EndpointLoad.create e s now = .ok l := by
  have hsum : ∀ d, ∃ x, DeferredSum.create d s.windows now = .ok x := by
    intro d
    rw [DeferredSum.create, ExpiryRing.create, if_neg (Nat.ne_of_gt h)]
    exact ⟨_, rfl⟩
  have htie : ∃ x, TieBreak.create s now = .ok x := by
    obtain ⟨x, hx⟩ := hsum s.lookBack
    rw [TieBreak.create, SlidingSum.create, hx]
    cases s.subStrategy <;> exact ⟨_, rfl⟩
  obtain ⟨tieBreak, htie⟩ := htie
  rw [EndpointLoad.create, htie]
  cases hf : s.failureSustain with
  | none => exact ⟨_, rfl⟩
  | some p =>
    obtain ⟨x, hx⟩ := hsum p.duration
    have hp : ∃ y, Penalty.create p s.windows now = .ok y := by
      rw [Penalty.create, hx]
      exact ⟨_, rfl⟩
    obtain ⟨y, hp⟩ := hp
    simp only [Option.mapM_some, hp, bind, Except.bind, pure, Except.pure]
    exact ⟨_, rfl⟩

namespace LoadTable

variable {s : LoadSettings} {now : Nat} {t t' t'' : LoadTable}

/-- States made at `now` are added, and those that are there stay as they are. -/
structure Grows (s : LoadSettings) (now : Nat) (t t' : LoadTable) : Prop where
  size : t.states.size ≤ t'.states.size
  loads : ∀ r : LoadRef, r.place < t.states.size → t'.load r = t.load r
  fresh : ∀ r : LoadRef, t.states.size ≤ r.place → r.place < t'.states.size →
    ∃ e, EndpointLoad.create e s now = .ok (t'.load r)

theorem Grows.refl : Grows s now t t :=
  ⟨Nat.le_refl _, fun _ _ => rfl, fun _ h h' => absurd h' (Nat.not_lt.2 h)⟩

theorem Grows.trans (h : Grows s now t t') (h' : Grows s now t' t'') : Grows s now t t'' := by
  refine ⟨Nat.le_trans h.size h'.size, fun r hr => ?_, fun r hr hr' => ?_⟩
  · rw [h'.loads r (Nat.lt_of_lt_of_le hr h.size), h.loads r hr]
  · by_cases hlt : r.place < t'.states.size
    · rw [h'.loads r hlt]
      exact h.fresh r hr hlt
    · exact h'.fresh r (Nat.not_lt.1 hlt) hr'

theorem load_of_size_le {r : LoadRef} (h : t.states.size ≤ r.place) : t.load r = vacant := by
  rw [load, Array.getD_eq_getD_getElem?, Array.getElem?_eq_none h]
  rfl

theorem Grows.forall {p : EndpointLoad → Prop} (h : Grows s now t t') (ht : ∀ r, p (t.load r))
    (hfresh : ∀ e l, EndpointLoad.create e s now = .ok l → p l) (hvacant : p vacant)
    (r : LoadRef) : p (t'.load r) := by
  by_cases hr : r.place < t.states.size
  · rw [h.loads r hr]
    exact ht r
  · by_cases hr' : r.place < t'.states.size
    · obtain ⟨e, he⟩ := h.fresh r (Nat.not_lt.1 hr) hr'
      exact hfresh e _ he
    · rw [load_of_size_le (Nat.not_lt.1 hr')]
      exact hvacant

theorem size_insert (t : LoadTable) (l : EndpointLoad) :
    (t.insert l).2.states.size = t.states.size + 1 := by
  simp [insert]

theorem load_insert (t : LoadTable) (l : EndpointLoad) (r : LoadRef) :
    (t.insert l).2.load r = if r.place = t.states.size then l else t.load r := by
  simp only [load, insert, Array.getD_eq_getD_getElem?, Array.getElem?_push]
  split <;> rfl

theorem Grows.insert {e : Endpoint} {l : EndpointLoad} (h : EndpointLoad.create e s now = .ok l) :
    Grows s now t (t.insert l).2 := by
  refine ⟨?_, fun r hr => ?_, fun r hr hlt => ?_⟩
  · rw [size_insert]
    exact Nat.le_succ _
  · rw [load_insert, if_neg (Nat.ne_of_lt hr)]
  · rw [size_insert] at hlt
    rw [load_insert, if_pos (by omega)]
    exact ⟨e, h⟩

end LoadTable

namespace Directory

open LoadTable

variable {d d' d'' : Directory} {t t' t'' : LoadTable} {now : Nat} {e : Endpoint} {r : LoadRef}

def Lists (d : Directory) (t : LoadTable) : Prop :=
  ∀ e r, d.find? e = some r → r.place < t.states.size ∧ t.endpoint r = e

theorem Lists.eq_of_endpoint_eq (h : d.Lists t) {r' : LoadRef} {e' : Endpoint}
    (hr : d.find? e = some r) (hr' : d.find? e' = some r') (he : t.endpoint r' = t.endpoint r) :
    r' = r := by
  have hee : e' = e := (h e' r' hr').2.symm.trans (he.trans (h e r hr).2)
  exact Option.some.inj (hr'.symm.trans (hee ▸ hr))

structure Extends (now : Nat) (d : Directory) (t : LoadTable) (d' : Directory) (t' : LoadTable) :
    Prop where
  settings : d'.settings = d.settings
  found : ∀ e r, d.find? e = some r → d'.find? e = some r
  grows : Grows d.settings now t t'

theorem Extends.refl : Extends now d t d t := ⟨rfl, fun _ _ h => h, .refl⟩

theorem Extends.trans (h : Extends now d t d' t') (h' : Extends now d' t' d'' t'') :
    Extends now d t d'' t'' :=
  ⟨h'.settings.trans h.settings, fun e r hr => h'.found e r (h.found e r hr),
    h.grows.trans (h.settings ▸ h'.grows)⟩

theorem find?_register (d : Directory) (e e' : Endpoint) (r : LoadRef) :
    ({ d with entries := d.entries.insert e r } : Directory).find? e' =
      if e = e' then some r else d.find? e' := by
  simp only [find?, Std.HashMap.getElem?_insert, beq_iff_eq]

theorem Lists.register (h : d.Lists t) {l : EndpointLoad} (hl : l.endpoint = e) :
    ({ d with entries := d.entries.insert e (t.insert l).1 } : Directory).Lists (t.insert l).2 := by
  intro e' r hr
  rw [find?_register] at hr
  rw [size_insert, LoadTable.endpoint, load_insert]
  split at hr
  · next he =>
    obtain rfl := Option.some.inj hr
    exact ⟨Nat.lt_succ_self _, (congrArg _ (if_pos rfl)).trans (hl.trans he)⟩
  · obtain ⟨hlt, hend⟩ := h e' r hr
    rw [if_neg (Nat.ne_of_lt hlt)]
    exact ⟨Nat.lt_succ_of_lt hlt, hend⟩

theorem Extends.register (hfind : d.find? e = none) {l : EndpointLoad}
    (hl : EndpointLoad.create e d.settings now = .ok l) :
    Extends now d t { d with entries := d.entries.insert e (t.insert l).1 } (t.insert l).2 := by
  refine ⟨rfl, fun e' r hr => ?_, .insert hl⟩
  rw [find?_register, if_neg]
  · exact hr
  · rintro rfl
    rw [hfind] at hr
    cases hr

theorem getOrCreate_spec (h : d.Lists t) (hok : d.getOrCreate t now e = .ok (r, d', t')) :
    d'.Lists t' ∧ Extends now d t d' t' ∧ d'.find? e = some r := by
  rw [getOrCreate] at hok
  split at hok
  · next r' hfind =>
    cases hok
    exact ⟨h, .refl, hfind⟩
  · next hfind =>
    simp only [bind, Except.bind, pure, Except.pure] at hok
    split at hok
    · cases hok
    · next l hl =>
      cases hok
      refine ⟨h.register (EndpointLoad.endpoint_create hl), .register hfind hl, ?_⟩
      rw [find?_register, if_pos rfl]

structure Resolved (d : Directory) (t : LoadTable) (es : List Endpoint) (states : List LoadRef) :
    Prop where
  lists : d.Lists t
  found : es.map d.find? = states.map some

variable {es : List Endpoint} {states : List LoadRef}

theorem Resolved.exists_state (h : d.Resolved t es states) (he : e ∈ es) :
    ∃ r ∈ states, d.find? e = some r := by
  have hmem : d.find? e ∈ es.map d.find? := List.mem_map_of_mem he
  rw [h.found] at hmem
  obtain ⟨r, hr, hfind⟩ := List.mem_map.1 hmem
  exact ⟨r, hr, hfind.symm⟩

theorem Resolved.exists_endpoint (h : d.Resolved t es states) (hr : r ∈ states) :
    ∃ e ∈ es, d.find? e = some r := by
  have hmem : some r ∈ states.map some := List.mem_map_of_mem hr
  rw [← h.found] at hmem
  exact List.mem_map.1 hmem

theorem Resolved.find?_endpoint (h : d.Resolved t es states) (hr : r ∈ states) :
    d.find? (t.endpoint r) = some r ∧ t.endpoint r ∈ es := by
  obtain ⟨e, he, hfind⟩ := h.exists_endpoint hr
  rw [(h.lists e r hfind).2]
  exact ⟨hfind, he⟩

theorem Resolved.apart (h : d.Resolved t es states) : t.Apart states := by
  constructor
  · intro r hr
    exact (h.lists _ r (h.find?_endpoint hr).1).1
  · intro r hr r' hr' he
    exact h.lists.eq_of_endpoint_eq (h.find?_endpoint hr).1 (h.find?_endpoint hr').1 he

theorem Resolved.map_endpoint (h : d.Resolved t es states) : states.map t.endpoint = es := by
  have hsome : es.map some = (es.map d.find?).map (Option.map t.endpoint) := by
    rw [List.map_map]
    refine List.map_congr_left fun e he => ?_
    obtain ⟨r, -, hr⟩ := h.exists_state he
    rw [Function.comp_apply, hr, Option.map_some, (h.lists e r hr).2]
  rw [h.found, List.map_map] at hsome
  refine (List.map_inj_right (f := some) fun a b hab => Option.some.inj hab).1 ?_
  rw [hsome, List.map_map]
  rfl

theorem resolve_spec {es : List Endpoint} {rs : List LoadRef} (h : d.Lists t)
    (hok : d.resolve t now es = .ok (rs, d', t')) :
    Extends now d t d' t' ∧ d'.Resolved t' es rs := by
  induction es generalizing d t rs d' t' with
  | nil =>
    cases hok
    exact ⟨.refl, h, rfl⟩
  | cons e es ih =>
    simp only [resolve, bind, Except.bind, pure, Except.pure] at hok
    split at hok
    · cases hok
    · next x hx =>
      obtain ⟨r, d₁, t₁⟩ := x
      obtain ⟨h₁, hext₁, hr⟩ := getOrCreate_spec h hx
      simp only at hok
      split at hok
      · cases hok
      · next y hy =>
        obtain ⟨rs₂, d₂, t₂⟩ := y
        obtain ⟨hext₂, hrs⟩ := ih h₁ hy
        cases hok
        refine ⟨hext₁.trans hext₂, hrs.lists, ?_⟩
        rw [List.map_cons, List.map_cons, hext₂.found e r hr, hrs.found]

theorem exists_resolve (h : 0 < d.settings.windows) (t : LoadTable) (now : Nat)
    (es : List Endpoint) : ∃ x, d.resolve t now es = .ok x := by
  induction es generalizing d t with
  | nil => exact ⟨_, rfl⟩
  | cons e es ih =>
    have hget : ∃ r d' t', d.getOrCreate t now e = .ok (r, d', t') ∧ d'.settings = d.settings := by
      rw [getOrCreate]
      split
      · exact ⟨_, _, _, rfl, rfl⟩
      · obtain ⟨l, hl⟩ := EndpointLoad.exists_create h e now
        simp only [hl, bind, Except.bind, pure, Except.pure]
        exact ⟨_, _, _, rfl, rfl⟩
    obtain ⟨r, d', t', hok, hsettings⟩ := hget
    obtain ⟨x, hx⟩ := ih (hsettings ▸ h) t'
    simp only [resolve, hok, hx, bind, Except.bind, pure, Except.pure]
    exact ⟨_, rfl⟩

end Directory

end LeastLoad
