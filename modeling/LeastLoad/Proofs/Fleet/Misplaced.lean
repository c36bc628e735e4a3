import LeastLoad.Proofs.Endpoint.Account
import LeastLoad.Proofs.Fleet.Overlooked
import LeastLoad.Proofs.Fleet.Prompt
import LeastLoad.Proofs.Fleet.Tasks

/-! # Entries that waking leaves out of their places

A completion wakes the queue while the entry of the completed task is out of its place. An entry
whose penalty comes off then may be found in order with that entry, which only afterwards moves
away from above it. Four endpoints are enough to lose the order in this way, and with it the least
loaded endpoint. -/

namespace LeastLoad

theorem EndpointLoad.inFlight_sync_release (l : EndpointLoad) (now : Nat) (n : Int32)
    (latency : Duration) :
    ((l.release now n latency).sync now).inFlight = (l.sync now).inFlight - n.toUInt32 := by
  have hconc : ((l.release now n latency).sync now).concurrency = (l.sync now).concurrency - n := by
    simp only [sync, release]
    split
    · rfl
    · simp only [Int32.sub_eq_add_neg, Int32.add_assoc, Int32.add_comm (-n)]
  rw [inFlight, hconc]
  rfl

namespace Ranking

variable {s : LoadTable × Ranking} {r e f top : LoadRef} {now due : Nat} {p : Nat}

theorem wake_of_ahead (h : ∀ w ∈ s.2.wakeups, now < w.due) : wake now s = s := by
  have hnone : s.2.wakeups.takeWhile (·.due ≤ now) = [] := by
    cases hw : s.2.wakeups with
    | nil => rfl
    | cons w rest =>
      have hlt := h w (hw ▸ List.mem_cons_self)
      exact List.takeWhile_cons_of_neg (by simpa using hlt)
  have hall := List.takeWhile_append_dropWhile (p := (·.due ≤ now)) (l := s.2.wakeups)
  rw [hnone, List.nil_append] at hall
  rw [wake_eq, hnone, hall]
  rfl

theorem heard_of_ahead (ht : Tidy s) (hr : r ∈ s.2.queue.contents)
    (h : ∀ w ∈ s.2.wakeups, now < w.due) (since : Nat) :
    Fleet.heard now r since s = if since ≤ now then resync now s r
      else
        (s.1, { s.2 with wakeups := Wakeup.insertInto ⟨since, s.1.endpoint r⟩ s.2.wakeups }) := by
  have hmem := ht.member hr
  have hcontains : s.2.members.contains (s.1.endpoint r) = true := by
    rw [Std.HashMap.contains_eq_isSome_getElem?, hmem]
    rfl
  rw [Fleet.heard, if_pos hr, loadDropped, if_pos hcontains, wake_of_ahead h]
  simp only [resift, hmem]

theorem Alert.inFlight_eq (h : Alert now [] s) (hnow : now ≤ horizon)
    (hr : r ∈ s.2.queue.contents)
    (hahead : ∀ w ∈ s.2.wakeups, w.endpoint = s.1.endpoint r → now < w.due) :
    (s.1.load r).inFlight = s.1.inFlightAt now r := by
  have hstill := (h.awaits r hr).concurrency_sync hnow fun d hd =>
    hahead ⟨d, s.1.endpoint r⟩ hd rfl
  exact (congrArg Int32.toUInt32 hstill).symm

theorem compare_ne_lt {t : LoadTable} (hb : ∀ r, (t.load r).Bare)
    (h : (t.load r).inFlight ≤ (t.load e).inFlight) : t.compare e r ≠ .lt := by
  rw [LoadTable.compare, (hb e).compare (hb r)]
  exact fun hlt => UInt32.not_lt.2 h (Std.compare_eq_lt.1 hlt)

theorem bare_resync (hb : ∀ r, (s.1.load r).Bare) (e r : LoadRef) :
    ((resync now s e).1.load r).Bare :=
  (LoadTable.Synced.sync e .refl).keeps (fun _ hl => hl.sync now) (hb r)

theorem Tidy.queue_resync_last (ht : Tidy s) (hb : ∀ r, ((Ranking.resync now s f).1.load r).Bare)
    (hsize : 2 ≤ s.2.queue.heap.size)
    (hf : s.2.queue.heap[s.2.queue.heap.size - 1]? = some f)
    (he : s.2.queue.heap[(s.2.queue.heap.size - 1 - 1) / 2]? = some e)
    (hle : ((Ranking.resync now s f).1.load e).inFlight ≤
      ((Ranking.resync now s f).1.load f).inFlight) :
    (Ranking.resync now s f).2.queue = s.2.queue := by
  rw [queue_resync ht hf]
  exact IndexedHeap.reposition_leaf_eq_self hf (by omega) he (compare_ne_lt hb hle)

/-- An entry without units rises to the top past entries with some, and nothing behind it moves. -/
theorem Tidy.resync_to_top (ht : Tidy s) (hb : ∀ r, ((Ranking.resync now s e).1.load r).Bare)
    (he : s.2.queue.heap[p]? = some e) (hzero : ((Ranking.resync now s e).1.load e).inFlight = 0)
    (habove : ∀ i < p, ∀ a, s.2.queue.heap[i]? = some a →
      0 < ((Ranking.resync now s e).1.load a).inFlight) :
    (Ranking.resync now s e).2.queue.peek = some e ∧
      ∀ j, p < j → (Ranking.resync now s e).2.queue.heap[j]? = s.2.queue.heap[j]? := by
  have hup : (Ranking.resync now s e).2.queue =
      s.2.queue.siftUp (Ranking.resync now s e).1.compare p := by
    rw [queue_resync ht he, IndexedHeap.reposition,
      IndexedHeap.sinkTo?_eq_none he fun c a _ ha => compare_ne_lt hb ?_]
    · rfl
    · rw [hzero]
      exact UInt32.zero_le
  rw [hup]
  refine IndexedHeap.siftUp_to_top he fun i hi a ha => ?_
  rw [LoadTable.compare, (hb e).compare (hb a), hzero]
  exact Std.compare_eq_lt.2 (habove i hi a ha)

/-- A top that is brought up to date and then not above either of its children in load, as they
show, is handed out, and stays where it is if it is below them. -/
theorem Tidy.take_top (h : Tidy s) (hw : s.2.wakeups = []) (hb : ∀ r, (s.1.load r).Bare)
    (hpeek : s.2.queue.peek = some top) (hav : (s.1.inFlightAt now top).toNat < 2 ^ 31)
    (hle : ∀ c r, c = 1 ∨ c = 2 → s.2.queue.heap[c]? = some r →
      s.1.inFlightAt now top ≤ (s.1.load r).inFlight) :
    (settle now (wake now s) = Ranking.resync now s top ∧
      Ranking.take now s = (some top, handed now (Ranking.resync now s top) top)) ∧
      ((∀ c r, c = 1 ∨ c = 2 → s.2.queue.heap[c]? = some r →
        s.1.inFlightAt now top < (s.1.load r).inFlight) →
        (handed now (Ranking.resync now s top) top).2.queue = s.2.queue) := by
  have hsynced : LoadTable.Synced now s.1 (Ranking.resync now s top).1 := .sync top .refl
  have hb' : ∀ r, ((Ranking.resync now s top).1.load r).Bare := bare_resync hb top
  have hplace := h.placed top (IndexedHeap.peek_mem hpeek)
  have htop : ((Ranking.resync now s top).1.load top).inFlight = s.1.inFlightAt now top :=
    congrArg EndpointLoad.inFlight (LoadTable.load_update_self hplace _)
  have hchild : ∀ c r, c = 1 ∨ c = 2 → s.2.queue.heap[c]? = some r →
      top ≠ r ∧ (Ranking.resync now s top).1.load r = s.1.load r := by
    intro c r hc hr
    have hne : top ≠ r := h.ne_of_slots hpeek hr (by omega)
    exact ⟨hne, LoadTable.load_update_of_ne hne _⟩
  have hstay : (Ranking.resync now s top).2.queue = s.2.queue := by
    rw [queue_resync h hpeek]
    refine IndexedHeap.reposition_top_eq_self hpeek fun c r hc hr => compare_ne_lt hb' ?_
    rw [htop, (hchild c r hc hr).2]
    exact hle c r hc hr
  have hav' : ((Ranking.resync now s top).1.load top).available = true :=
    EndpointLoad.available_iff.2 ⟨(hb' top).enabled, by rw [htop]; exact hav⟩
  refine ⟨take_of_stays hw hpeek hstay hav', fun hlt => ?_⟩
  change ((Ranking.resync now s top).2.queue.offer _ top).2 = s.2.queue
  rw [hstay, h.indexed.offer_eq_reposition (h.count_le_one top) hpeek]
  refine IndexedHeap.reposition_top_eq_self hpeek fun c r hc hr => compare_ne_lt (fun r' => ?_) ?_
  · rw [LoadTable.load_update]
    split
    · exact (hb' r').acquire now 1
    · exact hb' r'
  · have hbelow := hlt c r hc hr
    obtain ⟨hne, hload⟩ := hchild c r hc hr
    rw [LoadTable.load_update_of_ne hne, hload,
      LoadTable.load_update_self (hsynced.size.symm ▸ hplace)]
    change ((Ranking.resync now s top).1.load top).inFlight + 1 ≤ _
    rw [htop]
    rw [UInt32.lt_iff_toNat_lt] at hbelow
    rw [UInt32.le_iff_toNat_le, UInt32.toNat_add]
    exact (Nat.mod_le _ _).trans hbelow

theorem Alert.take_top (h : Alert now [] s) (hnow : now ≤ horizon) (hw : s.2.wakeups = [])
    (hb : ∀ r, (s.1.load r).Bare) (hpeek : s.2.queue.peek = some top)
    (hav : (s.1.inFlightAt now top).toNat < 2 ^ 31)
    (hle : ∀ c r, c = 1 ∨ c = 2 → s.2.queue.heap[c]? = some r →
      s.1.inFlightAt now top ≤ s.1.inFlightAt now r) :
    (Ranking.take now s).1 = some top ∧
      ((∀ c r, c = 1 ∨ c = 2 → s.2.queue.heap[c]? = some r →
        s.1.inFlightAt now top < s.1.inFlightAt now r) →
        (Ranking.take now s).2.2.queue = s.2.queue) := by
  have hshow : ∀ {c : Nat} {r : LoadRef}, s.2.queue.heap[c]? = some r →
      (s.1.load r).inFlight = s.1.inFlightAt now r := fun hr =>
    h.inFlight_eq hnow (IndexedHeap.mem_of_slot hr) (by simp [hw])
  obtain ⟨⟨-, htake⟩, hstay⟩ := h.tidy.take_top hw hb hpeek hav fun c r hc hr =>
    hshow hr ▸ hle c r hc hr
  rw [htake]
  exact ⟨rfl, fun hlt => hstay fun c r hc hr => hshow hr ▸ hlt c r hc hr⟩

theorem finished_failure (ht : Tidy s) (hr : r ∈ s.2.queue.contents) (hw : s.2.wakeups = [])
    {latency : Duration} (hdue : ((s.1.load r).penalize now latency).1 = some due)
    (hlt : now < due) :
    Fleet.finished now r false latency s = resync now
      ((s.1.update r fun l => (l.penalize now latency).2).update r (·.release now 1 latency),
        { s.2 with wakeups := [⟨due, s.1.endpoint r⟩] }) r := by
  have hend : ∀ l : EndpointLoad, (l.penalize now latency).2.endpoint = l.endpoint :=
    fun l => l.endpoint_penalize latency
  have htp := ht.update (r := r) hend
  have hpen : Fleet.penalized now r latency s =
      (s.1.update r fun l => (l.penalize now latency).2,
        { s.2 with wakeups := [⟨due, s.1.endpoint r⟩] }) := by
    simp only [Fleet.penalized, hdue]
    rw [heard_of_ahead htp hr (by simp [hw]), if_neg (Nat.not_le.2 hlt),
      LoadTable.endpoint_update hend, hw]
    rfl
  change Fleet.heard now r 0 ((Fleet.penalized now r latency s).1.update r _,
    (Fleet.penalized now r latency s).2) = _
  rw [hpen]
  have htr := (htp.keeps_wakeups [⟨due, s.1.endpoint r⟩]).tidy.update (r := r)
    (g := (·.release now 1 latency)) fun _ => rfl
  exact (heard_of_ahead htr hr (by simpa using hlt) 0).trans (if_pos (Nat.zero_le now))

theorem load_finished_failure (ht : Tidy s) (hr : r ∈ s.2.queue.contents) (hw : s.2.wakeups = [])
    {latency : Duration} (hdue : ((s.1.load r).penalize now latency).1 = some due)
    (hlt : now < due) :
    (Fleet.finished now r false latency s).1.load r =
        (((s.1.load r).penalize now latency).2.release now 1 latency).sync now ∧
      ∀ r', r ≠ r' → (Fleet.finished now r false latency s).1.load r' = s.1.load r' := by
  have hplace := ht.placed r hr
  rw [finished_failure ht hr hw hdue hlt]
  constructor
  · change (((s.1.update r _).update r _).update r (·.sync now)).load r = _
    rw [LoadTable.load_update_self (by simpa only [LoadTable.size_update] using hplace),
      LoadTable.load_update_self (by simpa only [LoadTable.size_update] using hplace),
      LoadTable.load_update_self hplace]
  · intro r' hne
    change (((s.1.update r _).update r _).update r (·.sync now)).load r' = _
    rw [LoadTable.load_update_of_ne hne, LoadTable.load_update_of_ne hne,
      LoadTable.load_update_of_ne hne]

/-- The failure leaves its entry where it is, if that is the last one and the penalty outweighs the
load above it. -/
theorem finished_failure_last (ht : Tidy s) (hb : ∀ r, (s.1.load r).Bare)
    (hf : s.2.queue.heap[s.2.queue.heap.size - 1]? = some f) (hsize : 2 ≤ s.2.queue.heap.size)
    (he : s.2.queue.heap[(s.2.queue.heap.size - 1 - 1) / 2]? = some e) (hef : e ≠ f)
    (hw : s.2.wakeups = []) {latency : Duration}
    (hdue : ((s.1.load f).penalize now latency).1 = some due) (hlt : now < due)
    (hle : (s.1.load e).inFlight ≤ ((Fleet.finished now f false latency s).1.load f).inFlight) :
    (Fleet.finished now f false latency s).2.queue = s.2.queue ∧
      (Fleet.finished now f false latency s).2.wakeups = [⟨due, s.1.endpoint f⟩] := by
  have hmem : f ∈ s.2.queue.contents := IndexedHeap.mem_of_slot hf
  obtain ⟨hloadf, hloadr⟩ := load_finished_failure ht hmem hw hdue hlt
  have htp := ht.update (r := f) (g := fun l => (l.penalize now latency).2)
    fun l => l.endpoint_penalize latency
  have htr := (htp.keeps_wakeups [⟨due, s.1.endpoint f⟩]).tidy.update (r := f)
    (g := (·.release now 1 latency)) fun _ => rfl
  rw [finished_failure ht hmem hw hdue hlt] at hloadf hloadr hle ⊢
  generalize hs₁ : (((s.1.update f fun l => (l.penalize now latency).2).update f
    (·.release now 1 latency), { s.2 with wakeups := [⟨due, s.1.endpoint f⟩] }) :
      LoadTable × Ranking) = s₁ at htr hloadf hloadr hle ⊢
  have hq : s₁.2.queue = s.2.queue := by rw [← hs₁]
  have hb₁ : ∀ r, ((resync now s₁ f).1.load r).Bare := by
    intro r
    by_cases hr : f = r
    · rw [← hr, hloadf]
      exact (((hb f).penalize now latency).release now 1 latency).sync now
    · rw [hloadr r hr]
      exact hb r
  constructor
  · rw [← hq] at hf hsize he
    refine (htr.queue_resync_last hb₁ hsize hf he ?_).trans hq
    rw [hloadr e (Ne.symm hef)]
    exact hle
  · rw [← hs₁]
    rfl

theorem finished_waking (ht : Tidy s) (he : e ∈ s.2.queue.contents) (hf : f ∈ s.2.queue.contents)
    (hw : s.2.wakeups = [⟨due, s.1.endpoint f⟩]) (hle : due ≤ now) (latency : Duration) :
    Fleet.finished now e true latency s =
      resync now
        (resync now (s.1.update e (·.release now 1 latency), { s.2 with wakeups := [] }) f) e := by
  have htr := ht.update (r := e) (g := (·.release now 1 latency)) fun _ => rfl
  have hend : ∀ r, (s.1.update e (·.release now 1 latency)).endpoint r = s.1.endpoint r :=
    fun _ => LoadTable.endpoint_update fun _ => rfl
  have hwake : wake now (s.1.update e (·.release now 1 latency), s.2) =
      resync now (s.1.update e (·.release now 1 latency), { s.2 with wakeups := [] }) f := by
    have hmem := ht.member hf
    rw [wake_eq, hw]
    simp only [hle, decide_true, List.takeWhile_cons_of_pos, List.takeWhile_nil, List.foldl_cons,
      List.foldl_nil, List.dropWhile_cons_of_pos, List.dropWhile_nil, resift, hmem]
  have hmem := ht.member he
  have hcontains : s.2.members.contains (s.1.endpoint e) = true := by
    rw [Std.HashMap.contains_eq_isSome_getElem?, hmem]
    rfl
  change Fleet.heard now e 0 (s.1.update e (·.release now 1 latency), s.2) = _
  rw [Fleet.heard, if_pos he, hend, loadDropped, if_pos hcontains, hwake]
  dsimp only
  rw [if_pos (Nat.zero_le now), resift]
  simp only [resync, hmem]

theorem Tidy.inFlight_waking (ht : Tidy s) (now : Nat) (he : e ∈ s.2.queue.contents)
    (hf : f ∈ s.2.queue.contents) (hef : e ≠ f) (latency : Duration) (r : LoadRef) :
    ((Ranking.resync now (Ranking.resync now (s.1.update e (·.release now 1 latency),
      { s.2 with wakeups := [] }) f) e).1.load r).inFlight =
      if r = e then s.1.inFlightAt now e - 1
      else if r = f then s.1.inFlightAt now f else (s.1.load r).inFlight := by
  have hplacee := ht.placed e he
  have hplacef := ht.placed f hf
  change ((((s.1.update e (·.release now 1 latency)).update f (·.sync now)).update e
    (·.sync now)).load r).inFlight = _
  by_cases hre : r = e
  · rw [if_pos hre, hre, LoadTable.load_update_self (by simpa only [LoadTable.size_update]),
      LoadTable.load_update_of_ne (Ne.symm hef), LoadTable.load_update_self hplacee,
      EndpointLoad.inFlight_sync_release]
    rfl
  · rw [if_neg hre, LoadTable.load_update_of_ne (Ne.symm hre)]
    by_cases hrf : r = f
    · rw [if_pos hrf, hrf, LoadTable.load_update_self (by simpa only [LoadTable.size_update]),
        LoadTable.load_update_of_ne hef]
      rfl
    · rw [if_neg hrf, LoadTable.load_update_of_ne (Ne.symm hrf),
        LoadTable.load_update_of_ne (Ne.symm hre)]

/-- The last entry is found in order with its parent, which has been released as well and then rises
to the top; what takes the place of the parent is loaded, and the last entry is not. -/
theorem finished_misplaces (ht : Tidy s) (hb : ∀ r, (s.1.load r).Bare)
    (hsize : 4 ≤ s.2.queue.heap.size)
    (hf : s.2.queue.heap[s.2.queue.heap.size - 1]? = some f)
    (he : s.2.queue.heap[(s.2.queue.heap.size - 1 - 1) / 2]? = some e)
    (hw : s.2.wakeups = [⟨due, s.1.endpoint f⟩]) (hle : due ≤ now)
    (hrest : ∀ r ∈ s.2.queue.contents, r ≠ f → (s.1.load r).inFlight = 1)
    (hesynced : s.1.inFlightAt now e = 1) (hfsynced : s.1.inFlightAt now f = 0)
    (latency : Duration) :
    (Fleet.finished now e true latency s).2.queue.peek = some e ∧
      (Fleet.finished now e true latency s).2.queue.heap[s.2.queue.heap.size - 1]? = some f ∧
      (Fleet.finished now e true latency s).2.wakeups = [] ∧
      ∀ r ∈ s.2.queue.contents, ((Fleet.finished now e true latency s).1.load r).inFlight =
        if r = e ∨ r = f then 0 else 1 := by
  have hmeme := IndexedHeap.mem_of_slot he
  have hmemf := IndexedHeap.mem_of_slot hf
  have hef : e ≠ f := ht.ne_of_slots he hf (by omega)
  rw [finished_waking ht hmeme hmemf hw hle]
  have hwaking := ht.inFlight_waking now hmeme hmemf hef latency
  have hbe : ((s.1.update e (·.release now 1 latency)).load e).inFlight = 0 := by
    rw [LoadTable.load_update_self (ht.placed e hmeme)]
    change (s.1.load e).inFlight - 1 = 0
    rw [hrest e hmeme hef]
    rfl
  have hba : ∀ r, ((s.1.update e (·.release now 1 latency)).load r).Bare := by
    intro r
    rw [LoadTable.load_update]
    split
    · exact (hb r).release now 1 latency
    · exact hb r
  have hta : Tidy (s.1.update e (·.release now 1 latency), { s.2 with wakeups := [] }) :=
    ((ht.update (g := (·.release now 1 latency)) fun _ => rfl).keeps_wakeups _).tidy
  generalize hsa : (s.1.update e (·.release now 1 latency),
    ({ s.2 with wakeups := [] } : Ranking)) = sa at hta hwaking ⊢
  have hloads : sa.1 = s.1.update e (·.release now 1 latency) := by rw [← hsa]
  have hqa : sa.2.queue = s.2.queue := by rw [← hsa]
  rw [← hloads] at hbe hba
  have hvalue : ∀ r ∈ s.2.queue.contents,
      ((resync now (resync now sa f) e).1.load r).inFlight = if r = e ∨ r = f then 0 else 1 := by
    intro r hr
    rw [hwaking, hesynced, hfsynced]
    by_cases hre : r = e
    · rw [if_pos hre, if_pos (.inl hre)]
      rfl
    · by_cases hrf : r = f
      · rw [if_neg hre, if_pos hrf, if_pos (.inr hrf)]
      · rw [if_neg hre, if_neg hrf, if_neg (by tauto), hrest r hr hrf]
  -- the last entry stays below its parent, which has been released
  have hqb : (resync now sa f).2.queue = s.2.queue := by
    rw [← hqa] at hf he hsize
    refine (hta.queue_resync_last (bare_resync hba f) (by omega) hf he ?_).trans hqa
    change ((sa.1.update f (·.sync now)).load e).inFlight ≤ _
    rw [LoadTable.load_update_of_ne (Ne.symm hef), hbe]
    exact UInt32.zero_le
  -- the parent rises to the top, past entries that are loaded
  have htb : Tidy (resync now sa f) := hta.resync (hqa ▸ hmemf)
  have he' : (resync now sa f).2.queue.heap[(s.2.queue.heap.size - 1 - 1) / 2]? = some e := by
    rw [hqb]
    exact he
  obtain ⟨htop, hbehind⟩ := htb.resync_to_top (bare_resync (bare_resync hba f) e) he'
    ((hvalue e hmeme).trans (if_pos (.inl rfl))) fun i hi a ha => by
      rw [hqb] at ha
      have hae : a ≠ e := ht.ne_of_slots ha he (by omega)
      have haf : a ≠ f := ht.ne_of_slots ha hf (by omega)
      rw [hvalue a (IndexedHeap.mem_of_slot ha), if_neg (by tauto)]
      decide
  rw [hqb] at hbehind
  refine ⟨htop, (hbehind _ (by omega)).trans hf, ?_, hvalue⟩
  rw [← hsa]
  rfl

end Ranking

namespace FailureSustain

variable {f : FailureSustain} {windows now : Nat}

theorem removal_le (f : FailureSustain) (windows now : Nat) (latency : Duration) :
    f.removal windows now latency ≤ f.removal windows now ⟨0⟩ := by
  rw [removal, removal]
  split
  · exact le_rfl
  · have hle : now + (f.duration.minus latency).nanos ≤ now + (f.duration.minus ⟨0⟩).nanos := by
      simp only [Duration.minus]
      omega
    exact Nat.mul_le_mul_right _ (Nat.succ_le_succ (Nat.div_le_div_right hle))

theorem lt_removal (hf : f.duration.nanos ≠ 0) (hw : 0 < windows) (now : Nat)
    (latency : Duration) :
    now + (f.duration.minus latency).nanos < f.removal windows now latency :=
  (isLeast_removal hf hw now latency).1.2

theorem toNat_units (f : FailureSustain) : (Int32.ofInt f.units).toUInt32.toNat = f.units := by
  have hle : f.units ≤ signedMax32 := Nat.min_le_right _ _
  simp only [signedMax32] at hle
  rw [Int32.ofInt_eq_ofNat, Int32.toUInt32_ofNat', UInt32.toNat_ofNat']
  exact Nat.mod_eq_of_lt (by omega)

end FailureSustain

namespace ClockedLoad

variable {f : FailureSustain} {windows : Nat} {units : Int} {pending : List LedgerEntry}
  {p : Penalty} {l : EndpointLoad} {clock : Clock}

theorem Accounts.failed (h : Accounts f windows units [] pending p ⟨clock, l⟩)
    (hS : f.duration.nanos ≠ 0) (hfit : f.removal windows clock.now ⟨0⟩ ≤ horizon)
    (hone : (l.sync clock.now).inFlight = 1) (latency : Duration) :
    ∃ due, (l.penalize clock.now latency).1 = some due ∧ clock.now < due ∧ due ≤ horizon ∧
      (((l.penalize clock.now latency).2.release clock.now 1 latency).sync
        clock.now).inFlight.toNat = f.units ∧
      ∀ c : Clock, due ≤ c.now →
        ((((l.penalize clock.now latency).2.release clock.now 1 latency).sync
          clock.now).sync c.now).inFlight = 0 := by
  have hw : 0 < windows := h.agrees.windows_pos
  have hlt := FailureSustain.lt_removal hS hw clock.now latency
  have hle := f.removal_le windows clock.now latency
  have hroom : clock.now + f.duration.nanos ≤ horizon := by
    have hmost := FailureSustain.lt_removal hS hw clock.now ⟨0⟩
    simp only [Duration.minus, Nat.sub_zero] at hmost
    omega
  obtain ⟨hdue, -⟩ := h.penalize hroom latency
  rw [Nat.min_eq_left (hle.trans hfit)] at hdue
  have hfails : Drives ⟨clock, l⟩ [(clock, .penalize latency), (clock, .release 1 latency)]
      (((ClockedLoad.mk clock l).step (.penalize latency)).step (.release 1 latency)) :=
    (Drives.start.event (.penalize latency) le_rfl).event (.release 1 latency) le_rfl
  obtain ⟨_, _, hrun⟩ := h.drives hfails hroom
  obtain ⟨hnow, _, _, hsynced⟩ := hrun.sync
  have hunits : Int32.ofInt units = 1 := by
    have hconc := h.sync.1
    rw [List.countP_nil, Nat.cast_zero, Int.mul_zero, Int.add_zero] at hconc
    rw [← hconc]
    exact congrArg Int32.ofUInt32 hone
  have hshow : ∀ n : Int, Int32.ofInt (units + LoadAccount.units [(clock, .penalize latency),
      (clock, .release 1 latency)] + n) = Int32.ofInt n := by
    intro n
    have hzero : 1 + Int32.ofInt (0 + (-(1 : Int32).toInt + 0)) = 0 := by decide
    rw [Int32.ofInt_add, Int32.ofInt_add, hunits]
    exact (congrArg (· + Int32.ofInt n) hzero).trans (Int32.zero_add _)
  have hcount : ∀ t, ([] ++ LoadAccount.removals f windows [(clock, .penalize latency),
      (clock, .release 1 latency)]).countP (t < ·) =
      if t < f.removal windows clock.now latency then 1 else 0 := by
    intro t
    change [f.removal windows clock.now latency].countP (t < ·) = _
    simp only [List.countP_singleton, decide_eq_true_eq]
  refine ⟨_, hdue, by omega, hle.trans hfit, ?_, fun c hc => ?_⟩
  · rw [hshow, hcount, if_pos (by change clock.now < _; omega), Nat.cast_one, Int.mul_one] at hnow
    exact (congrArg (UInt32.toNat ∘ Int32.toUInt32) hnow).trans f.toNat_units
  · have hlater := (hsynced.later (c := c) (by change clock.now ≤ c.now; omega)).sync.1
    rw [hshow, hcount, if_neg (Nat.not_lt.2 hc), Nat.cast_zero, Int.mul_zero] at hlater
    exact congrArg Int32.toUInt32 hlater

end ClockedLoad

end LeastLoad
