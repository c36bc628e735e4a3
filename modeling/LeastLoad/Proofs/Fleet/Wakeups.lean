import LeastLoad.Proofs.Endpoint.Synced
import LeastLoad.Proofs.Fleet.Alone
import Mathlib.Data.List.TakeDrop
import Mathlib.Data.List.TakeWhile

/-! # Wake-ups for the penalties of members

The penalties of a member come off unnoticed, but for each of them a wake-up is kept until it has
come off. A ranking that has just been woken therefore knows of each member whether it may be
handed out, and neither waking nor settling changes the answer. -/

namespace LeastLoad

namespace Wakeup

variable {w v : Wakeup} {l : List Wakeup} {now : Nat}

def InTurn (l : List Wakeup) : Prop := l.Pairwise (·.due ≤ ·.due)

theorem mem_insertInto : v ∈ w.insertInto l ↔ v = w ∨ v ∈ l := by
  induction l with
  | nil => simp [insertInto]
  | cons u rest ih =>
    rw [insertInto]
    split
    · exact List.mem_cons
    · rw [List.mem_cons, ih, List.mem_cons]
      tauto

theorem due_le_of_precedes (h : w.precedes v = true) : w.due ≤ v.due := by
  simp only [precedes, Bool.or_eq_true, Bool.and_eq_true, decide_eq_true_eq] at h
  omega

theorem due_le_of_not_precedes (h : ¬ w.precedes v = true) : v.due ≤ w.due := by
  simp only [precedes, Bool.or_eq_true, Bool.and_eq_true, decide_eq_true_eq] at h
  omega

theorem InTurn.insertInto (h : InTurn l) (w : Wakeup) : InTurn (w.insertInto l) := by
  induction l with
  | nil => exact List.pairwise_singleton _ w
  | cons u rest ih =>
    obtain ⟨hu, hrest⟩ := List.pairwise_cons.1 h
    rw [Wakeup.insertInto]
    split
    · next hlt =>
      refine List.pairwise_cons.2 ⟨fun v hv => ?_, h⟩
      have hle := due_le_of_precedes hlt
      rcases List.mem_cons.1 hv with rfl | hv
      · exact hle
      · exact hle.trans (hu v hv)
    · next hnot =>
      refine List.pairwise_cons.2 ⟨fun v hv => ?_, ih hrest⟩
      rcases mem_insertInto.1 hv with rfl | hv
      · exact due_le_of_not_precedes hnot
      · exact hu v hv

theorem InTurn.lt_of_mem_dropWhile (h : InTurn l) (hv : v ∈ l.dropWhile (·.due ≤ now)) :
    now < v.due := by
  induction l with
  | nil => cases hv
  | cons u rest ih =>
    obtain ⟨hu, hrest⟩ := List.pairwise_cons.1 h
    by_cases hle : u.due ≤ now
    · rw [List.dropWhile_cons, if_pos (decide_eq_true hle)] at hv
      exact ih hrest hv
    · rw [List.dropWhile_cons, if_neg (mt of_decide_eq_true hle)] at hv
      rcases List.mem_cons.1 hv with rfl | hv
      · exact Nat.lt_of_not_le hle
      · exact Nat.lt_of_lt_of_le (Nat.lt_of_not_le hle) (hu v hv)

end Wakeup

namespace Ranking

variable {s s' : LoadTable × Ranking} {r : LoadRef} {e : Endpoint} {w : Wakeup}
  {ws ws' extra : List Wakeup} {now since : Nat}

/-- The penalties of the members come off at wake-ups of theirs. -/
def Awaits (now : Nat) (ws : List Wakeup) (s : LoadTable × Ranking) : Prop :=
  ∀ r ∈ s.2.queue.contents, (s.1.load r).Awaited (fun d => ⟨d, s.1.endpoint r⟩ ∈ ws) now

theorem Awaits.mono (h : Awaits now ws s) (hw : ws ⊆ ws') : Awaits now ws' s :=
  fun r hr => (h r hr).mono fun _ hd => hw hd

theorem Awaits.resync (ht : Tidy s) (hr : r ∈ s.2.queue.contents) (h : Awaits now ws s)
    (hws : ∀ w ∈ ws, w ∈ ws' ∨ w.endpoint = s.1.endpoint r ∧ w.due ≤ now) :
    Awaits now ws' (resync now s r) := by
  intro r' hr'
  rw [contents_resync ht hr] at hr'
  rw [endpoint_resync]
  change ((s.1.update r (·.sync now)).load r').Awaited _ now
  rw [LoadTable.load_update]
  split
  · next hrr =>
    obtain ⟨rfl, -⟩ := hrr
    refine (h r hr).sync.mono ?_
    rintro d ⟨hd, hlt⟩
    exact (hws _ hd).resolve_right fun hle => Nat.not_lt.2 hle.2 hlt
  · next hrr =>
    refine (h r' hr').mono fun d hd => (hws _ hd).resolve_right fun heq => hrr ?_
    exact ⟨(ht.eq_of_endpoint_eq hr' hr heq.1).symm, ht.placed r hr⟩

theorem Awaits.resift (ht : Tidy s) (h : Awaits now (w :: ws) s) (hw : w.due ≤ now) :
    Awaits now ws (resift now s w.endpoint) := by
  rw [Ranking.resift]
  split
  · next r hr =>
    obtain ⟨hmem, he⟩ := (ht.members w.endpoint r).1 hr
    refine h.resync ht hmem fun v hv => ?_
    rcases List.mem_cons.1 hv with rfl | hv
    · exact Or.inr ⟨he.symm, hw⟩
    · exact Or.inl hv
  · next hnone =>
    intro r hr
    refine (h r hr).mono fun d hd => ?_
    rcases List.mem_cons.1 hd with rfl | hd
    · have hsome := ht.member hr
      rw [hnone] at hsome
      cases hsome
    · exact hd

theorem wakeups_resift : (resift now s e).2.wakeups = s.2.wakeups := by
  rw [resift]
  split
  · exact wakeups_resync
  · rfl

theorem Awaits.foldl_resift (ht : Tidy s) {due : List Wakeup} (hdue : ∀ w ∈ due, w.due ≤ now)
    (h : Awaits now (due ++ ws) s) :
    Awaits now ws (due.foldl (fun s w => Ranking.resift now s w.endpoint) s) ∧
      (due.foldl (fun s w => Ranking.resift now s w.endpoint) s).2.wakeups = s.2.wakeups := by
  induction due generalizing s with
  | nil => exact ⟨h, rfl⟩
  | cons w due ih =>
    obtain ⟨ha, hw⟩ := ih (ht.keeps_resift w.endpoint).tidy
      (fun v hv => hdue v (List.mem_cons_of_mem w hv)) (h.resift ht (hdue w List.mem_cons_self))
    exact ⟨ha, hw.trans wakeups_resift⟩

/-- The wake-ups are kept in turn and, with the extra ones, are those that the penalties of the
members need. -/
structure Alert (now : Nat) (extra : List Wakeup) (s : LoadTable × Ranking) : Prop where
  tidy : Tidy s
  inTurn : Wakeup.InTurn s.2.wakeups
  awaits : Awaits now (extra ++ s.2.wakeups) s

theorem wake_eq (now : Nat) (s : LoadTable × Ranking) :
    wake now s = (s.2.wakeups.takeWhile (·.due ≤ now)).foldl
      (fun s w => resift now s w.endpoint)
      (s.1, { s.2 with wakeups := s.2.wakeups.dropWhile (·.due ≤ now) }) := by
  rw [wake, List.span_eq_takeWhile_dropWhile]

theorem Alert.wake (h : Alert now extra s) :
    Alert now extra (wake now s) ∧ ∀ w ∈ (Ranking.wake now s).2.wakeups, now < w.due := by
  have hdue : ∀ w ∈ s.2.wakeups.takeWhile (·.due ≤ now), w.due ≤ now := by
    intro w hw
    have hp := List.mem_takeWhile_imp hw
    exact of_decide_eq_true hp
  have ha : Awaits now (s.2.wakeups.takeWhile (·.due ≤ now) ++
      (extra ++ s.2.wakeups.dropWhile (·.due ≤ now)))
      (s.1, { s.2 with wakeups := s.2.wakeups.dropWhile (·.due ≤ now) }) := by
    refine Awaits.mono h.awaits fun w hw => ?_
    rw [← List.takeWhile_append_dropWhile (p := (·.due ≤ now)) (l := s.2.wakeups)] at hw
    simp only [List.mem_append] at hw ⊢
    tauto
  -- the wake-ups that are due are still needed until their entries have been moved
  have hk : Keeps s (Ranking.wake now s) := h.tidy.keeps_wake
  rw [wake_eq] at hk ⊢
  obtain ⟨ha', hw⟩ := ha.foldl_resift (h.tidy.keeps_wakeups _).tidy hdue
  refine ⟨⟨hk.tidy, ?_, ?_⟩, fun w hmem => ?_⟩
  · rw [hw]
    exact h.inTurn.sublist (List.dropWhile_sublist _)
  · rw [hw]
    exact ha'
  · rw [hw] at hmem
    exact h.inTurn.lt_of_mem_dropWhile hmem

theorem Alert.loadDropped (h : Alert now (⟨since, e⟩ :: extra) s) :
    Alert now extra (loadDropped now e since s) := by
  rw [Ranking.loadDropped]
  split
  · obtain ⟨hw, -⟩ := h.wake
    dsimp only
    split
    · next hle =>
      have ha := Awaits.resift (w := ⟨since, e⟩) hw.tidy hw.awaits hle
      refine ⟨(hw.tidy.keeps_resift e).tidy, ?_, ?_⟩
      · rw [wakeups_resift]
        exact hw.inTurn
      · rw [wakeups_resift]
        exact ha
    · refine ⟨(hw.tidy.keeps_wakeups _).tidy, hw.inTurn.insertInto _, ?_⟩
      refine Awaits.mono hw.awaits fun w hmem => ?_
      simp only [List.mem_append, List.mem_cons, Wakeup.mem_insertInto] at hmem ⊢
      tauto
  · next hnone =>
    refine ⟨h.tidy, h.inTurn, fun r hr => (h.awaits r hr).mono fun d hd => ?_⟩
    rcases List.mem_cons.1 hd with heq | hd
    · have hmem := h.tidy.member hr
      obtain ⟨-, rfl⟩ := Wakeup.mk.inj heq
      rw [Std.HashMap.contains_eq_isSome_getElem?, hmem] at hnone
      exact absurd rfl hnone
    · exact hd

theorem Alert.resync (h : Alert now extra s) (hr : r ∈ s.2.queue.contents) :
    Alert now extra (resync now s r) :=
  ⟨h.tidy.resync hr, h.inTurn, Awaits.resync h.tidy hr h.awaits fun _ hw => Or.inl hw⟩

theorem Alert.offer (h : Alert now extra s) (cmp : LoadRef → LoadRef → Ordering)
    (hr : r ∈ s.2.queue.contents) :
    Alert now extra (s.1, { s.2 with queue := (s.2.queue.offer cmp r).2 }) := by
  refine ⟨h.tidy.offer cmp hr, h.inTurn, fun r' hr' => h.awaits r' ?_⟩
  rwa [contents_offer_of_mem h.tidy.indexed hr] at hr'

theorem Alert.later {later : Nat} (h : Alert now extra s) (hl : now ≤ later) :
    Alert later extra s :=
  ⟨h.tidy, h.inTurn, fun r hr => (h.awaits r hr).later hl⟩

theorem Alert.update (h : Alert now extra s) {more : List Wakeup} {g : EndpointLoad → EndpointLoad}
    (hg : ∀ l, (g l).endpoint = l.endpoint) (hmore : extra ⊆ more)
    (hr : r ∈ s.2.queue.contents →
      (g (s.1.load r)).Awaited (fun d => ⟨d, s.1.endpoint r⟩ ∈ more ++ s.2.wakeups) now) :
    Alert now more (s.1.update r g, s.2) := by
  refine ⟨h.tidy.update hg, h.inTurn, fun r' hr' => ?_⟩
  rw [LoadTable.endpoint_update hg, LoadTable.load_update]
  split
  · next heq =>
    obtain ⟨rfl, -⟩ := heq
    exact hr hr'
  · refine (h.awaits r' hr').mono fun _ hd => ?_
    exact List.mem_append.2 ((List.mem_append.1 hd).imp_left fun hin => hmore hin)

theorem Alert.update_of_penalty_eq (h : Alert now extra s) {g : EndpointLoad → EndpointLoad}
    (hg : ∀ l, (g l).endpoint = l.endpoint) (hp : ∀ l, (g l).penalty = l.penalty) :
    Alert now extra (s.1.update r g, s.2) :=
  h.update hg (List.Subset.refl _) fun hr => (h.awaits r hr).of_penalty_eq (hp _)

theorem Alert.synced (h : Alert now extra s) {t : LoadTable} (ht : LoadTable.Synced now s.1 t) :
    Alert now extra (t, s.2) := by
  refine ⟨h.tidy.congr ht.size ht.endpoint, h.inTurn, fun r hr => ?_⟩
  rw [ht.endpoint]
  exact ht.keeps (fun _ hl => hl.sync.mono fun _ hd => hd.1) (h.awaits r hr)

theorem Alert.settle (h : Alert now extra s) :
    Alert now extra (settle now s) ∧ (Ranking.settle now s).2.wakeups = s.2.wakeups :=
  settle_of_resync (P := fun s' => Alert now extra s' ∧ s'.2.wakeups = s.2.wakeups)
    (fun _ _ hs hr => ⟨hs.1.resync hr, hs.2⟩) ⟨h, rfl⟩

theorem Alert.take (h : Alert now extra s) : Alert now extra (take now s).2 := by
  obtain ⟨hs, -⟩ := h.wake.1.settle
  rw [Ranking.take]
  generalize Ranking.settle now (Ranking.wake now s) = s' at hs ⊢
  dsimp only
  split
  · exact hs
  · next top htop =>
    split
    · have hu : Alert now extra (s'.1.update top (·.acquire now 1), s'.2) :=
        hs.update_of_penalty_eq (fun _ => rfl) fun _ => rfl
      exact hu.offer _ (IndexedHeap.peek_mem htop)
    · exact hs

theorem Alert.heard (h : Alert now extra s) {g : EndpointLoad → EndpointLoad}
    (hg : ∀ l, (g l).endpoint = l.endpoint)
    (hr : r ∈ s.2.queue.contents → (g (s.1.load r)).Awaited
      (fun d => ⟨d, s.1.endpoint r⟩ ∈ (⟨since, s.1.endpoint r⟩ :: extra) ++ s.2.wakeups) now)
    {t : LoadTable} (ht : LoadTable.Synced now (s.1.update r g) t) :
    Alert now extra (Fleet.heard now r since (t, s.2)) := by
  have hend : t.endpoint r = s.1.endpoint r :=
    (ht.endpoint r).trans (LoadTable.endpoint_update hg)
  rw [Fleet.heard, hend]
  split
  · exact ((h.update hg (List.subset_cons_self _ _) hr).synced ht).loadDropped
  · next hnot =>
    exact (h.update hg (List.Subset.refl _) fun hmem => absurd hmem hnot).synced ht

theorem Alert.heard_of_penalty_eq (h : Alert now extra s) {g : EndpointLoad → EndpointLoad}
    (hg : ∀ l, (g l).endpoint = l.endpoint) (hp : ∀ l, (g l).penalty = l.penalty)
    {t : LoadTable} (ht : LoadTable.Synced now (s.1.update r g) t) :
    Alert now extra (Fleet.heard now r since (t, s.2)) :=
  h.heard hg (fun hr => ((h.awaits r hr).of_penalty_eq (hp _)).mono fun _ hd =>
    List.mem_cons_of_mem _ hd) ht

theorem Alert.heard_penalize (h : Alert now extra s) (hnow : now ≤ horizon) {latency : Duration}
    {due : Nat} (hdue : ((s.1.load r).penalize now latency).1 = some due) {t : LoadTable}
    (ht : LoadTable.Synced now (s.1.update r fun l => (l.penalize now latency).2) t) :
    Alert now extra (Fleet.heard now r due (t, s.2)) := by
  refine h.heard (fun l => l.endpoint_penalize latency) (fun hr => ?_) ht
  refine ((h.awaits r hr).mono fun d hd => ?_).penalize hnow latency fun d hd => ?_
  · exact List.mem_cons_of_mem _ hd
  · obtain rfl : due = d := Option.some.inj (hdue.symm.trans hd)
    exact List.mem_cons_self

theorem Alert.penalized (h : Alert now extra s) (hnow : now ≤ horizon) (latency : Duration) :
    Alert now extra (Fleet.penalized now r latency s) := by
  rw [Fleet.penalized]
  split
  · exact h
  · next due hdue => exact h.heard_penalize hnow hdue .refl

theorem Alert.finished (h : Alert now extra s) (hnow : now ≤ horizon) (succeeded : Bool)
    (latency : Duration) : Alert now extra (Fleet.finished now r succeeded latency s) := by
  have hp : Alert now extra (if succeeded then s else Fleet.penalized now r latency s) := by
    split
    · exact h
    · exact h.penalized hnow latency
  exact hp.heard_of_penalty_eq (g := (·.release now 1 latency)) (fun _ => rfl) (fun _ => rfl) .refl

theorem Alert.switched (h : Alert now extra s) (disabled : Bool) :
    Alert now extra (Fleet.switched now r disabled s) := by
  rw [Fleet.switched]
  split
  · exact h.heard_of_penalty_eq (g := (·.setDisabled disabled)) (fun _ => rfl) (fun _ => rfl) .refl
  · exact h.update_of_penalty_eq (fun _ => rfl) fun _ => rfl

/-- Nothing differs as to which members may be handed out. -/
structure Alike (now : Nat) (ws : List Wakeup) (s s' : LoadTable × Ranking) : Prop where
  keeps : Keeps s s'
  awaits : Awaits now ws s'
  ready : ∀ r ∈ s.2.queue.contents, (s'.1.load r).ready now = (s.1.load r).ready now

theorem Alike.resync (h : Alike now ws s s') (hnow : now ≤ horizon)
    (hr : r ∈ s'.2.queue.contents) : Alike now ws s (Ranking.resync now s' r) := by
  refine ⟨h.keeps.trans (h.keeps.tidy.keeps_resync hr),
    h.awaits.resync h.keeps.tidy hr fun _ hw => Or.inl hw, fun r' hr' => ?_⟩
  rw [← h.ready r' hr']
  change ((s'.1.update r (·.sync now)).load r').ready now = _
  rw [LoadTable.load_update]
  split
  · exact (h.awaits r' (h.keeps.contents ▸ hr')).ready_sync hnow
  · rfl

theorem Alike.resift (h : Alike now ws s s') (hnow : now ≤ horizon) (e : Endpoint) :
    Alike now ws s (Ranking.resift now s' e) := by
  rw [Ranking.resift]
  split
  · next r hr => exact h.resync hnow ((h.keeps.tidy.members e r).1 hr).1
  · exact h

/-- After waking and settling, what may be handed out needs no further adjustment. -/
theorem Alert.settled (h : Alert now [] s) (hnow : now ≤ horizon) :
    Keeps s (Ranking.settle now (Ranking.wake now s)) ∧
      ∀ r ∈ s.2.queue.contents,
        ((Ranking.settle now (Ranking.wake now s)).1.load r).available =
          (s.1.load r).ready now := by
  have hstart : Alike now s.2.wakeups s
      (s.1, { s.2 with wakeups := s.2.wakeups.dropWhile (·.due ≤ now) }) :=
    ⟨h.tidy.keeps_wakeups _, h.awaits, fun _ _ => rfl⟩
  have hwake : Alike now s.2.wakeups s (Ranking.wake now s) := by
    rw [wake_eq]
    exact List.foldlRecOn _ _ hstart fun _ hs w _ => hs.resift hnow w.endpoint
  have hsettle : Alike now s.2.wakeups s (Ranking.settle now (Ranking.wake now s)) :=
    settle_of_resync (fun _ _ hs hr => hs.resync hnow hr) hwake
  obtain ⟨ha, hlater⟩ := h.wake
  obtain ⟨ha', hw⟩ := ha.settle
  refine ⟨hsettle.keeps, fun r hr => ?_⟩
  rw [← hsettle.ready r hr]
  refine ((ha'.awaits r (hsettle.keeps.contents ▸ hr)).ready_eq_available hnow fun d hd => ?_).symm
  rw [hw] at hd
  exact hlater _ hd

end Ranking

end LeastLoad
