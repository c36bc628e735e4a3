import LeastLoad.Proofs.Choice.Partition
import LeastLoad.Proofs.Choice.Weighted
import LeastLoad.Proofs.Endpoint.Standing
import LeastLoad.Proofs.Fleet.Shared
import Mathlib.Data.List.Induction

/-! # What a scan of a group finds

A scan goes once through a row and applies what is due to each load on the way. As that changes
nothing when it is done again, each candidate is compared as it would be if the whole row had been
brought up to date before, however often a load stands in it. -/

namespace LeastLoad

variable {load : LoadRef → EndpointLoad} {row : List LoadRef} {best : Option LoadRef}
  {r : LoadRef} {kind : SubStrategy}

/-- The first of the least loaded available places of a row, or nothing if none is available. -/
def FirstLeast (load : LoadRef → EndpointLoad) (row : List LoadRef) : Option LoadRef → Prop
  | none => ∀ s ∈ row, (load s).available = false
  | some r => ∃ before after, row = before ++ r :: after ∧ (load r).available = true ∧
      (∀ s ∈ before, (load s).available = true → (load r).compare (load s) = .lt) ∧
      ∀ s ∈ row, (load s).available = true → (load r).compare (load s) ≠ .gt

theorem FirstLeast.mem (h : FirstLeast load row (some r)) : r ∈ row := by
  obtain ⟨before, after, rfl, -⟩ := h
  exact List.mem_append_right _ List.mem_cons_self

def prefer (load : LoadRef → EndpointLoad) (best : Option LoadRef) (r : LoadRef) :
    Option LoadRef :=
  if (load r).available then
    some (best.elim r fun b => if (load r).compare (load b) = .lt then r else b)
  else best

theorem FirstLeast.snoc (h : FirstLeast load row best)
    (hkind : ∀ s ∈ row ++ [r], (load s).kind = kind) :
    FirstLeast load (row ++ [r]) (prefer load best r) := by
  have hr : (load r).kind = kind := hkind r (List.mem_append_right _ List.mem_cons_self)
  have hold : ∀ s ∈ row, (load s).kind = kind := fun s hs => hkind s (List.mem_append_left _ hs)
  rw [prefer]
  cases hav : (load r).available with
  | false =>
    -- what is not available changes neither the places before nor the available ones
    cases best with
    | none =>
      intro s hs
      rcases List.mem_append.1 hs with hs | hs
      · exact h s hs
      · rwa [List.mem_singleton.1 hs]
    | some b =>
      obtain ⟨before, after, rfl, hb, hbefore, hall⟩ := h
      refine ⟨before, after ++ [r], by simp, hb, hbefore, fun s hs hs' => ?_⟩
      rcases List.mem_append.1 hs with hs | hs
      · exact hall s hs hs'
      · rw [List.mem_singleton.1 hs, hav] at hs'
        cases hs'
  | true =>
    cases best with
    | none =>
      refine ⟨row, [], rfl, hav, fun s hs hs' => ?_, fun s hs hs' => ?_⟩
      · rw [h s hs] at hs'
        cases hs'
      · rcases List.mem_append.1 hs with hs | hs
        · rw [h s hs] at hs'
          cases hs'
        · rw [List.mem_singleton.1 hs, Option.elim, EndpointLoad.compare_self]
          decide
    | some b =>
      have hmem := h.mem
      obtain ⟨before, after, hrow, hb, hbefore, hall⟩ := h
      simp only [if_true, Option.elim]
      split
      · next hlt =>
        have hless : ∀ s ∈ row, (load s).available = true → (load r).compare (load s) = .lt :=
          fun s hs hs' => EndpointLoad.compare_lt_of_lt_of_ne_gt (hr.trans (hold b hmem).symm)
            ((hold b hmem).trans (hold s hs).symm) hlt (hall s hs hs')
        refine ⟨row, [], rfl, hav, hless, fun s hs hs' => ?_⟩
        rcases List.mem_append.1 hs with hs | hs
        · rw [hless s hs hs']
          decide
        · rw [List.mem_singleton.1 hs, EndpointLoad.compare_self]
          decide
      · next hnlt =>
        refine ⟨before, after ++ [r], by simp [hrow], hb, hbefore, fun s hs hs' => ?_⟩
        rcases List.mem_append.1 hs with hs | hs
        · exact hall s hs hs'
        · rw [List.mem_singleton.1 hs]
          exact EndpointLoad.compare_ne_gt_of_ne_lt (hr.trans (hold b hmem).symm) hnlt

theorem perm_rotateLeft {α : Type} (xs : List α) (n : Nat) : (xs.rotateLeft n).Perm xs := by
  rw [List.rotateLeft]
  dsimp only
  split
  · exact .refl xs
  · exact List.perm_append_comm.trans (.of_eq (List.take_append_drop _ _))

namespace Grouping

variable {now : Nat} {t : LoadTable} {g : Grouping} {words : Words}

def shown (now : Nat) (t : LoadTable) (group : List LoadRef) (r : LoadRef) : EndpointLoad :=
  if r ∈ group then (t.load r).sync now else t.load r

theorem consider_eq (best : Option LoadRef) (r : LoadRef) {loads : LoadTable}
    (hloads : ∀ s, loads.load s = shown now t row s) (hbest : ∀ b, best = some b → b ∈ row) :
    (∀ s, (consider now (best, loads) r).2.load s = shown now t (row ++ [r]) s) ∧
      (consider now (best, loads) r).1 = prefer (fun s => (t.load s).sync now) best r := by
  have hnext : ∀ s, (loads.update r (·.sync now)).load s = shown now t (row ++ [r]) s := by
    intro s
    rw [LoadTable.load_update_sync, hloads, shown, shown]
    by_cases hs : s ∈ row <;> by_cases hr : r = s
    · simp [hs, hr]
    · simp [hs, hr]
    · simp [hs, hr]
    · simp [hs, hr, Ne.symm hr]
  have hsynced : ∀ s ∈ row ++ [r],
      (loads.update r (·.sync now)).load s = (t.load s).sync now := fun s hs => by
    rw [hnext, shown, if_pos hs]
  have hr := hsynced r (List.mem_append_right _ List.mem_cons_self)
  simp only [consider, prefer, hr]
  cases best with
  | none => split <;> exact ⟨hnext, rfl⟩
  | some b =>
    have hb := hsynced b (List.mem_append_left _ (hbest b rfl))
    simp only [LoadTable.compare, hr, hb]
    split <;> exact ⟨hnext, rfl⟩

theorem leastLoaded_spec (now : Nat) (row : List LoadRef)
    (hkind : ∀ s ∈ row, (t.load s).kind = kind) :
    (∀ s, (leastLoaded now t row).2.load s = shown now t row s) ∧
      FirstLeast (fun s => (t.load s).sync now) row (leastLoaded now t row).1 := by
  induction row using List.reverseRecOn with
  | nil => exact ⟨fun s => rfl, nofun⟩
  | append_singleton row r ih =>
    obtain ⟨hloads, hfirst⟩ := ih fun s hs => hkind s (List.mem_append_left _ hs)
    rw [leastLoaded, List.foldl_append, List.foldl_cons, List.foldl_nil, ← leastLoaded]
    cases hfound : leastLoaded now t row with
    | mk best loads =>
      rw [hfound] at hloads hfirst
      obtain ⟨hnext, hprefer⟩ := consider_eq best r hloads
        fun b hb => FirstLeast.mem (hb ▸ hfirst)
      refine ⟨hnext, ?_⟩
      rw [hprefer]
      exact hfirst.snoc fun s hs => EndpointLoad.kind_sync.trans (hkind s hs)

def draw (g : Grouping) (words : Words) : Option (List LoadRef × Nat) :=
  (g.groups.select words).1.map fun group =>
    (group, (Random.uniform group.length (g.groups.select words).2).1)

/-- What a choice does with the group that it has drawn. -/
structure Picks (now : Nat) (t : LoadTable) (group : List LoadRef) (start : Nat)
    (choice : Option LoadRef) (t' : LoadTable) : Prop where
  start_lt : start < group.length
  first : FirstLeast (fun r => (t.load r).sync now) (group.rotateLeft start) choice
  loads : ∀ r, t'.load r = if choice = some r then ((t.load r).sync now).acquire now 1
    else shown now t group r

theorem take_of_draw_none (now : Nat) (t : LoadTable) (h : g.draw words = none) :
    (g.take now t words).1 = none ∧ (g.take now t words).2.1 = t := by
  rw [draw] at h
  rw [take]
  cases hs : g.groups.select words with
  | mk choice words' =>
    rw [hs] at h
    obtain rfl : choice = none := Option.map_eq_none_iff.1 h
    exact ⟨rfl, rfl⟩

theorem take_of_draw (now : Nat) {group : List LoadRef} {start : Nat}
    (h : g.draw words = some (group, start)) (hne : group ≠ [])
    (hgroup : ∀ r ∈ group, r.place < t.states.size ∧ (t.load r).kind = kind) :
    Picks now t group start (g.take now t words).1 (g.take now t words).2.1 := by
  rw [draw] at h
  rw [take]
  cases hs : g.groups.select words with
  | mk choice words' =>
    rw [hs] at h
    obtain ⟨drawn, rfl, heq⟩ := Option.map_eq_some_iff.1 h
    obtain ⟨rfl, rfl⟩ := Prod.mk.inj heq
    dsimp only
    have hlt := Random.uniform_lt (List.length_pos_iff.2 hne) words'
    have hmem : ∀ n s, s ∈ drawn.rotateLeft n ↔ s ∈ drawn :=
      fun n s => (perm_rotateLeft drawn n).mem_iff
    generalize Random.uniform drawn.length words' = start at hlt ⊢
    obtain ⟨hloads, hfirst⟩ := leastLoaded_spec now (drawn.rotateLeft start.1)
      fun s hs => (hgroup s ((hmem _ s).1 hs)).2
    have hshown : ∀ s, shown now t (drawn.rotateLeft start.1) s = shown now t drawn s := fun s => by
      simp only [shown, hmem]
    have hsize := (synced_leastLoaded now t (drawn.rotateLeft start.1)).size
    cases hfound : leastLoaded now t (drawn.rotateLeft start.1) with
    | mk best loads =>
      rw [hfound] at hloads hfirst hsize
      cases best with
      | none => exact ⟨hlt, hfirst, fun s => (hloads s).trans (hshown s)⟩
      | some b =>
        have hb := (hmem _ b).1 hfirst.mem
        refine ⟨hlt, hfirst, fun s => ?_⟩
        have hplace : b.place < loads.states.size := hsize ▸ (hgroup b hb).1
        change (loads.update b (·.acquire now 1)).load s = _
        rw [LoadTable.load_update, hloads, hshown]
        by_cases hbs : b = s
        · subst hbs
          rw [if_pos ⟨rfl, hplace⟩, if_pos rfl, shown, if_pos hb]
        · rw [if_neg fun h => hbs h.1, if_neg fun h => hbs (Option.some.inj h)]

theorem items_layout (maxGroup : Nat) (states : List LoadRef) :
    (layout maxGroup states).groups.items =
      (partition states.length maxGroup).map (·.slice states) := by
  simp [layout, Weighted.items_ofList]

theorem total_layout {maxGroup : Nat} (h : 0 < maxGroup) (states : List LoadRef) :
    (layout maxGroup states).groups.total = min states.length Weighted.ceiling := by
  rw [layout, Weighted.total_ofList, List.map_map]
  change min ((partition states.length maxGroup).map Span.size).sum _ = _
  rw [sum_sizes_partition h]

theorem draw_layout_nil (maxGroup : Nat) (words : Words) :
    (layout maxGroup []).draw words = none := by
  have hz : (layout maxGroup []).groups.total = 0 := by
    rcases Nat.eq_zero_or_pos maxGroup with rfl | h
    · rfl
    · simp [total_layout h]
  rw [draw, Weighted.select_of_total_eq_zero hz]
  rfl

theorem exists_draw_layout {maxGroup : Nat} (h : 0 < maxGroup) {states : List LoadRef}
    (hne : states ≠ []) (words : Words) :
    ∃ s ∈ partition states.length maxGroup, ∃ start,
      (layout maxGroup states).draw words = some (s.slice states, start) := by
  have hpos : 0 < (layout maxGroup states).groups.total := by
    rw [total_layout h]
    exact Nat.lt_min.2 ⟨List.length_pos_iff.2 hne, by decide⟩
  obtain ⟨group, hgroup, hselect⟩ := Weighted.select_of_total_pos hpos words
  rw [items_layout] at hgroup
  obtain ⟨s, hs, rfl⟩ := List.mem_map.1 hgroup
  refine ⟨s, hs,
    (Random.uniform (s.slice states).length ((layout maxGroup states).groups.select words).2).1, ?_⟩
  rw [draw, hselect]
  rfl

end Grouping

end LeastLoad
