import LeastLoad.Proofs.Fleet.Scan
import LeastLoad.Proofs.Fleet.Tasks

/-! # Who holds which state

Most of what happens in a fleet changes the numbers of loads and the order of rankings, and leaves
each state in the hands that hold it. -/

namespace LeastLoad

namespace LoadTable

variable {t t' t'' : LoadTable} {now : Nat}

/-- The states are those of the same endpoints and of the same kinds. -/
structure Kindred (t t' : LoadTable) : Prop where
  size : t'.states.size = t.states.size
  endpoint : ∀ r, t'.endpoint r = t.endpoint r
  kind : ∀ r, (t'.load r).kind = (t.load r).kind

theorem Kindred.refl : Kindred t t := ⟨rfl, fun _ => rfl, fun _ => rfl⟩

theorem Kindred.trans (h : Kindred t t') (h' : Kindred t' t'') : Kindred t t'' :=
  ⟨h'.size.trans h.size, fun r => (h'.endpoint r).trans (h.endpoint r),
    fun r => (h'.kind r).trans (h.kind r)⟩

theorem Kindred.update (r : LoadRef) {g : EndpointLoad → EndpointLoad}
    (he : ∀ l, (g l).endpoint = l.endpoint) (hk : ∀ l, (g l).kind = l.kind) :
    Kindred t (t.update r g) :=
  ⟨size_update, fun _ => endpoint_update he, fun _ => load_update_congr (·.kind) hk⟩

theorem Synced.kindred (h : Synced now t t') : Kindred t t' := by
  induction h with
  | refl => exact .refl
  | sync r _ ih =>
    exact ih.trans (.update r (fun _ => EndpointLoad.endpoint_sync) fun _ => EndpointLoad.kind_sync)

end LoadTable

open LoadTable (Kindred)

namespace Ranking

variable {s : LoadTable × Ranking} {now : Nat}

theorem synced_refresh (now : Nat) (s : LoadTable × Ranking) :
    LoadTable.Synced now s.1 (refresh now s).1 :=
  List.foldlRecOn (motive := fun s' : LoadTable × Ranking => LoadTable.Synced now s.1 s'.1) _ _
    .refl fun _ hs r _ => .sync r hs

theorem Tidy.keeps_refresh (h : Tidy s) : Keeps s (refresh now s) := by
  refine List.foldlRecOn (motive := fun s' => Keeps s s') _ _ (.refl h) fun s' hs r hr => ?_
  refine hs.trans (hs.tidy.keeps_resync ?_)
  rw [hs.contents]
  exact Multiset.mem_coe.2 hr

theorem kindred_take (now : Nat) (s : LoadTable × Ranking) : Kindred s.1 (take now s).2.1 := by
  have hsynced : LoadTable.Synced now s.1 (settle now (wake now s)).1 :=
    synced_wake.trans synced_settle
  obtain ⟨heq, -⟩ | ⟨top, -, -, heq⟩ := take_cases now s rfl
  · rw [heq]
    exact hsynced.kindred
  · rw [heq]
    exact hsynced.kindred.trans (.update top (fun _ => rfl) fun _ => EndpointLoad.kind_acquire 1)

theorem Tidy.mem_of_take (h : Tidy s) {r : LoadRef} (hr : (take now s).1 = some r) :
    r ∈ s.2.queue.contents := by
  have hw : Keeps s (wake now s) := h.keeps_wake
  have hk : Keeps s (settle now (wake now s)) := hw.trans hw.tidy.keeps_settle
  obtain ⟨heq, -⟩ | ⟨top, htop, -, heq⟩ := take_cases now s rfl
  · rw [heq] at hr
    cases hr
  · rw [heq] at hr
    obtain rfl := Option.some.inj hr
    exact hk.contents ▸ IndexedHeap.peek_mem htop

end Ranking

theorem Grouping.mem_of_leastLoaded {now : Nat} {t : LoadTable} {row : List LoadRef} {r : LoadRef}
    (h : (leastLoaded now t row).1 = some r) : r ∈ row := by
  have hall : ∀ b, (leastLoaded now t row).1 = some b → b ∈ row := by
    refine List.foldlRecOn (motive := fun s : Option LoadRef × LoadTable =>
      ∀ b, s.1 = some b → b ∈ row) row _ nofun ?_
    rintro ⟨best, loads⟩ hbest s hs b hb
    simp only [consider] at hb
    split at hb
    · cases best with
      | none => exact Option.some.inj hb ▸ hs
      | some c =>
        obtain rfl := Option.some.inj hb
        split
        · exact hs
        · exact hbest c rfl
    · exact hbest b hb
  exact hall r h

theorem Grouping.mem_of_take {now : Nat} {g : Grouping} {t : LoadTable} {words : Words}
    {r : LoadRef} (h : (g.take now t words).1 = some r) : r ∈ g.members := by
  rw [take] at h
  split at h
  · cases h
  · next group words' hselect =>
    have hgroup : group ∈ g.groups.items := Weighted.mem_of_select (congrArg Prod.fst hselect)
    dsimp only at h
    split at h
    · cases h
    · next found loads hfound =>
      obtain rfl := Option.some.inj h
      exact List.mem_flatten_of_mem hgroup
        ((perm_rotateLeft group _).mem_iff.1 (mem_of_leastLoaded (congrArg Prod.fst hfound)))

namespace Selection

variable {t t' t'' : LoadTable} {x x' x'' : Selection}

/-- A selection over the same members, of which only a ranking may have changed its order. -/
inductive Shifts (t t' : LoadTable) : Selection → Selection → Prop
  | grouped (g : Grouping) : Shifts t t' (.grouped g) (.grouped g)
  | ranked {k k' : Ranking} :
      Ranking.Keeps (t, k) (t', k') → Shifts t t' (.ranked k) (.ranked k')

theorem Shifts.trans (h : Shifts t t' x x') (h' : Shifts t' t'' x' x'') : Shifts t t'' x x'' := by
  cases h with
  | grouped g =>
    cases h'
    exact .grouped g
  | ranked hk =>
    cases h' with
    | ranked hk' => exact .ranked (hk.trans hk')

theorem Shifts.mem_members (h : Shifts t t' x x') {r : LoadRef} :
    r ∈ x'.members ↔ r ∈ x.members := by
  cases h with
  | grouped g => rfl
  | @ranked k k' hk =>
    change r ∈ k'.queue.contents ↔ r ∈ k.queue.contents
    rw [hk.contents]

theorem Shifts.still (hx : ∀ k, x = .ranked k → Ranking.Tidy (t, k)) (ht : Kindred t t') :
    Shifts t t' x x := by
  cases x with
  | grouped g => exact .grouped g
  | ranked k =>
    exact .ranked ⟨(hx k rfl).congr ht.size ht.endpoint, rfl, rfl, ht.size, ht.endpoint⟩

end Selection

theorem Balancer.take_shifts (x : Balancer) (now : Nat) (t : LoadTable) (words : Words)
    (hx : ∀ k, x.selection = .ranked k → Ranking.Tidy (t, k)) :
    Kindred t (x.take now t words).2.2.1 ∧
      Selection.Shifts t (x.take now t words).2.2.1 x.selection
        (x.take now t words).2.1.selection ∧
      ∀ r, (x.take now t words).1 = some r → r ∈ x.selection.members := by
  obtain ⟨selection, telemetry, listeners⟩ := x
  cases selection with
  | grouped g =>
    have hkin : Kindred t (g.take now t words).2.1 := by
      obtain ⟨t', ht', heq⟩ := Grouping.take_spec now g t words
      rw [heq]
      cases (g.take now t words).1 with
      | none => exact ht'.kindred
      | some r =>
        exact ht'.kindred.trans (.update r (fun _ => rfl) fun _ => EndpointLoad.kind_acquire 1)
    exact ⟨hkin, .grouped g, fun r hr => Grouping.mem_of_take hr⟩
  | ranked k =>
    have ht := hx k rfl
    exact ⟨Ranking.kindred_take now (t, k), .ranked ht.keeps_take,
      fun r hr => Multiset.mem_coe.1 (ht.mem_of_take hr)⟩

namespace Fleet

variable {f f' f'' : Fleet} {b : Nat} {r : LoadRef} {t : LoadTable}

def selection? (f : Fleet) (b : Nat) : Option Selection := (f.balancer? b).map (·.selection)

def stub? (f : Fleet) (i : Nat) : Option (LoadRef × Nat) :=
  (f.task? i >>= Task.ticket?).map fun t => (t.load, t.balancer)

/-- The members of each ranking are exactly what it queues. -/
def Coherent (f : Fleet) : Prop :=
  ∀ b k, f.selection? b = some (.ranked k) → Ranking.Tidy (f.loads, k)

/-- Each state stays in the hands that hold it. -/
structure Shifts (f f' : Fleet) : Prop where
  directory : f'.directory = f.directory
  outside : f'.held = f.held
  places : f'.seats.size = f.seats.size
  handles : ∀ b, f'.isHeld b = f.isHeld b
  stubs : ∀ i, f'.stub? i = f.stub? i
  loads : Kindred f.loads f'.loads
  selections : ∀ b,
    Option.Rel (Selection.Shifts f.loads f'.loads) (f.selection? b) (f'.selection? b)

theorem Shifts.trans (h : Shifts f f') (h' : Shifts f' f'') : Shifts f f'' := by
  refine ⟨h'.directory.trans h.directory, h'.outside.trans h.outside, h'.places.trans h.places,
    fun b => (h'.handles b).trans (h.handles b), fun i => (h'.stubs i).trans (h.stubs i),
    h.loads.trans h'.loads, fun b => ?_⟩
  have hb := h.selections b
  have hb' := h'.selections b
  generalize f.selection? b = x, f'.selection? b = x', f''.selection? b = x'' at hb hb'
  cases hb with
  | none =>
    cases hb'
    exact .none
  | some hs =>
    cases hb' with
    | some hs' => exact .some (hs.trans hs')

theorem Shifts.grouped_iff (h : Shifts f f') {g : Grouping} :
    f'.selection? b = some (.grouped g) ↔ f.selection? b = some (.grouped g) := by
  have hb := h.selections b
  generalize f.selection? b = x, f'.selection? b = x' at hb
  cases hb with
  | none => rfl
  | some hs => cases hs <;> simp

theorem Shifts.coherent (h : Shifts f f') : f'.Coherent := by
  intro b k hk
  have hb := h.selections b
  rw [hk] at hb
  generalize f.selection? b = x at hb
  cases hb with
  | some hs =>
    cases hs with
    | ranked hkeeps => exact hkeeps.tidy

theorem Coherent.still (h : f.Coherent) (ht : Kindred f.loads t) (b : Nat) :
    Option.Rel (Selection.Shifts f.loads t) (f.selection? b) (f.selection? b) := by
  cases hx : f.selection? b with
  | none => exact .none
  | some x =>
    refine .some (.still (fun k hk => h b k ?_) ht)
    rw [hx, hk]

theorem Coherent.shifts_loads (h : f.Coherent) (ht : Kindred f.loads t) :
    Shifts f { f with loads := t } :=
  ⟨rfl, rfl, rfl, fun _ => rfl, fun _ => rfl, ht, h.still ht⟩

theorem Coherent.refl (h : f.Coherent) : Shifts f f := h.shifts_loads .refl

theorem selection?_modifyBalancer (f : Fleet) (b c : Nat) (g : Balancer → Balancer) :
    (f.modifyBalancer b g).selection? c =
      if b = c then (f.balancer? c).map fun x => (g x).selection else f.selection? c := by
  rw [selection?, balancer?_modifyBalancer]
  split
  · rw [Option.map_map]
    rfl
  · rfl

theorem places_modifyBalancer (f : Fleet) (b : Nat) (g : Balancer → Balancer) :
    (f.modifyBalancer b g).seats.size = f.seats.size := by
  simp [modifyBalancer]

theorem Coherent.shifts_setBalancer (h : f.Coherent) {x y : Balancer}
    (hx : f.balancer? b = some x) (ht : Kindred f.loads t)
    (hs : Selection.Shifts f.loads t x.selection y.selection) (words : Words) :
    Shifts f (setBalancer { f with loads := t, words := words } b y) := by
  refine ⟨rfl, rfl, places_modifyBalancer _ _ _, fun b' => isHeld_modifyBalancer _ _ _ _,
    fun _ => rfl, ht, fun b' => ?_⟩
  rw [setBalancer, selection?_modifyBalancer]
  split
  · next hb =>
    subst hb
    change Option.Rel _ ((f.balancer? b).map _) ((f.balancer? b).map _)
    rw [hx]
    exact .some hs
  · exact h.still ht b'

theorem Coherent.shifts_modifyRanking (h : f.Coherent)
    {g : LoadTable × Ranking → LoadTable × Ranking}
    (hg : ∀ k, Ranking.Tidy (f.loads, k) →
      Ranking.Keeps (f.loads, k) (g (f.loads, k)) ∧ Kindred f.loads (g (f.loads, k)).1) :
    Shifts f (f.modifyRanking b g) := by
  rw [modifyRanking]
  split
  · next k telemetry listeners hx =>
    have hk : f.selection? b = some (.ranked k) := by
      rw [selection?, hx]
      rfl
    obtain ⟨hkeeps, hkin⟩ := hg k (h b k hk)
    exact h.shifts_setBalancer hx hkin (.ranked hkeeps) f.words
  · exact h.refl

theorem Coherent.shifts_announce (h : f.Coherent) (r : LoadRef) (since : Nat) :
    Shifts f (f.announce r since) := by
  rw [announce]
  refine List.foldlRecOn (motive := fun f' : Fleet => Shifts f f') _ _ h.refl fun f' hf b _ => ?_
  exact hf.trans (hf.coherent.shifts_modifyRanking fun k hk =>
    ⟨hk.keeps_loadDropped _ since,
      (Ranking.synced_loadDropped (s := (f'.loads, k)) _ since).kindred⟩)

theorem Coherent.shifts_update (h : f.Coherent) {g : EndpointLoad → EndpointLoad} (r : LoadRef)
    (he : ∀ l, (g l).endpoint = l.endpoint) (hk : ∀ l, (g l).kind = l.kind) :
    Shifts f { f with loads := f.loads.update r g } :=
  h.shifts_loads (.update r he hk)

theorem Coherent.shifts_release (h : f.Coherent) (r : LoadRef) (n : Int32) (latency : Duration) :
    Shifts f (f.release r n latency) := by
  have hu := h.shifts_update (g := (·.release f.now n latency)) r (fun _ => rfl)
    fun _ => EndpointLoad.kind_release n latency
  exact hu.trans (hu.coherent.shifts_announce r 0)

theorem Coherent.shifts_penalize (h : f.Coherent) (r : LoadRef) (latency : Duration) :
    Shifts f (f.penalize r latency).2 := by
  rw [penalize]
  split
  · exact h.refl
  · have hu := h.shifts_update (g := fun l => (l.penalize f.now latency).2) r
      (fun l => l.endpoint_penalize latency) fun _ => EndpointLoad.kind_penalize latency
    exact hu.trans (hu.coherent.shifts_announce r _)

theorem Coherent.shifts_setDisabled (h : f.Coherent) (r : LoadRef) (disabled : Bool) :
    Shifts f (f.setDisabled r disabled) := by
  have hu := h.shifts_update (g := (·.setDisabled disabled)) r (fun _ => rfl) fun _ => rfl
  rw [setDisabled]
  split
  · exact hu.trans (hu.coherent.shifts_announce r 0)
  · exact hu

theorem Coherent.shifts_refresh (h : f.Coherent) (b : Nat) : Shifts f (f.refresh b) :=
  h.shifts_modifyRanking fun k hk =>
    ⟨hk.keeps_refresh, (Ranking.synced_refresh f.now (f.loads, k)).kindred⟩

theorem Coherent.shifts_record (h : f.Coherent) (g : Telemetry → Telemetry) (b : Nat) :
    Shifts f (f.modifyBalancer b fun x => { x with telemetry := g x.telemetry }) := by
  refine ⟨rfl, rfl, places_modifyBalancer _ _ _, fun b' => isHeld_modifyBalancer _ _ _ _,
    fun _ => rfl, .refl, fun b' => ?_⟩
  rw [selection?_modifyBalancer]
  split
  · exact h.still .refl b'
  · exact h.still .refl b'

theorem Coherent.shifts_notify (h : f.Coherent) (listeners : List Listener) (event : Event) :
    Shifts f (f.notify listeners event) :=
  ⟨rfl, rfl, rfl, fun _ => rfl, fun _ => rfl, .refl, h.still .refl⟩

theorem Coherent.shifts_finish (h : f.Coherent) (t : Ticket) (succeeded : Bool)
    (latency : Duration) : Shifts f (f.finish t succeeded latency) := by
  have hp : Shifts f (if succeeded then f else (f.penalize t.load latency).2) := by
    split
    · exact h.refl
    · exact h.shifts_penalize t.load latency
  rw [finish]
  generalize (if succeeded then f else (f.penalize t.load latency).2) = f₁ at hp ⊢
  have hr := hp.trans (hp.coherent.shifts_release t.load 1 latency)
  have hm := hr.trans (hr.coherent.shifts_record
    (·.onComplete (f₁.release t.load 1 latency).now succeeded) t.balancer)
  exact hm.trans (hm.coherent.shifts_notify _ _)

theorem Coherent.shifts_complete (h : f.Coherent) (i : Nat) (succeeded : Bool)
    (latency : Option Duration) : Shifts f (f.complete i succeeded latency).2 := by
  rw [complete]
  split
  · exact h.refl
  · exact h.refl
  · next ticket htask =>
    split
    · exact h.refl
    · have hmark : Shifts f { f with
          tasks :=
            f.tasks.modify i fun _ => some (.tracked { ticket with completed := true }) } := by
        refine ⟨rfl, rfl, rfl, fun _ => rfl, fun j => ?_, .refl, h.still .refl⟩
        simp only [stub?, task?, Array.getElem?_modify]
        by_cases hij : i = j
        · subst hij
          rw [task?] at htask
          cases hget : f.tasks[i]? with
          | none =>
            rw [hget] at htask
            cases htask
          | some task =>
            rw [hget] at htask
            obtain rfl : task = some (.tracked ticket) := htask
            simp [Task.ticket?]
        · rw [if_neg hij]
      exact hmark.trans (hmark.coherent.shifts_finish ticket succeeded _)

theorem Coherent.shifts_report (h : f.Coherent) (b : Nat) : Shifts f (f.report b).2 := by
  rw [report]
  split
  · exact h.refl
  · next x hx =>
    have hstill : Selection.Shifts f.loads f.loads x.selection x.selection := by
      refine .still (fun k hk => h b k ?_) .refl
      rw [selection?, hx, ← hk]
      rfl
    dsimp only
    generalize x.telemetry.report f.now _ = reported
    exact h.shifts_setBalancer (y := { x with telemetry := reported.2 }) hx .refl hstill f.words

theorem Coherent.shifts_next (h : f.Coherent) (b : Nat) :
    Shifts f (f.next b).2 ∧ ∀ t, (f.next b).1 = some t →
      t.balancer = b ∧ ∃ x, f.selection? b = some x ∧ t.load ∈ x.members := by
  rw [next]
  cases hx : f.balancer? b with
  | none => exact ⟨h.refl, fun t ht => by cases ht⟩
  | some x =>
    have hsel : f.selection? b = some x.selection := by
      rw [selection?, hx]
      rfl
    obtain ⟨hkin, hshifts, hmem⟩ := x.take_shifts f.now f.loads f.words fun k hk => h b k (by
      rw [hsel, hk])
    dsimp only
    generalize x.take f.now f.loads f.words = taken at hkin hshifts hmem
    obtain ⟨choice, y, loads, words⟩ := taken
    cases choice with
    | none =>
      exact ⟨h.shifts_setBalancer hx hkin
        (y := { y with telemetry := y.telemetry.onExhausted }) hshifts words,
        fun t ht => by cases ht⟩
    | some r =>
      refine ⟨?_, fun t ht => ?_⟩
      · have hset := h.shifts_setBalancer hx hkin
          (y := { y with telemetry := y.telemetry.onRequest f.now }) hshifts words
        exact hset.trans (hset.coherent.shifts_notify _ _)
      · obtain rfl := Option.some.inj ht
        exact ⟨rfl, x.selection, hsel, hmem r rfl⟩

end Fleet

end LeastLoad
