import LeastLoad.Fleet.Members
import LeastLoad.Proofs.Fleet.Ranking

/-! # A fleet with one balancer

When a single ranked balancer drives its endpoints, all that matters of the fleet is the table of
loads with the one ranking. What is announced of a member's load reaches the ranking once, and what
is announced of other loads does not reach it. -/

namespace LeastLoad

namespace Selection

def ranking? : Selection → Option Ranking
  | grouped _ => none
  | ranked k => some k

end Selection

namespace Fleet

variable {f f' f'' : Fleet} {b c : Nat} {k : Ranking} {s : LoadTable × Ranking} {r : LoadRef}

def ranking? (f : Fleet) (b : Nat) : Option Ranking := f.balancer? b >>= (·.selection.ranking?)

theorem balancer?_modifyBalancer (f : Fleet) (b c : Nat) (g : Balancer → Balancer) :
    (f.modifyBalancer b g).balancer? c =
      if b = c then (f.balancer? c).map g else f.balancer? c := by
  simp only [balancer?, modifyBalancer, Array.getElem?_modify]
  split
  · cases f.seats[c]? <;> rfl
  · rfl

theorem isHeld_modifyBalancer (f : Fleet) (b c : Nat) (g : Balancer → Balancer) :
    (f.modifyBalancer b g).isHeld c = f.isHeld c := by
  simp only [isHeld, modifyBalancer, Array.getElem?_modify]
  split
  · cases f.seats[c]? <;> rfl
  · rfl

/-- Of the given loads `b` hears once, and of others nobody hears. -/
def Watch (watchers : Std.HashMap LoadRef (List Nat)) (b : Nat) (p : LoadRef → Prop) : Prop :=
  ∀ r, (p r → watchers.getD r [] = [b]) ∧ (¬ p r → watchers.getD r [] = [])

/-- The handle of `b` is kept, no other place has a balancer, and `b` watches its members. -/
structure Alone (f : Fleet) (b : Nat) (k : Ranking) : Prop where
  only : ∀ c, b ≠ c → f.balancer? c = none
  held : f.isHeld b = true
  ranked : f.ranking? b = some k
  watched : Watch f.watchers b (· ∈ k.queue.contents)

theorem Alone.alive (h : f.Alone b k) : f.isAlive b = true := by
  rw [isAlive, h.held, Bool.true_or]

theorem Alone.balancer (h : f.Alone b k) :
    ∃ x, f.balancer? b = some x ∧ x.selection = .ranked k := by
  have hk := h.ranked
  rw [ranking?] at hk
  obtain ⟨x, hx, hsel⟩ := Option.bind_eq_some_iff.1 hk
  refine ⟨x, hx, ?_⟩
  cases hs : x.selection with
  | grouped g => simp [hs, Selection.ranking?] at hsel
  | ranked k' => simpa [hs, Selection.ranking?] using hsel

theorem Alone.modifyBalancer (h : f.Alone b k) {k' : Ranking} {g : Balancer → Balancer}
    (hg : ∀ x, x.selection = .ranked k → (g x).selection = .ranked k')
    (hc : k'.queue.contents = k.queue.contents) : (f.modifyBalancer b g).Alone b k' := by
  obtain ⟨x, hx, hsel⟩ := h.balancer
  constructor
  · intro c hne
    rw [balancer?_modifyBalancer, if_neg hne]
    exact h.only c hne
  · rw [isHeld_modifyBalancer]
    exact h.held
  · rw [ranking?, balancer?_modifyBalancer, if_pos rfl, hx]
    simp [hg x hsel, Selection.ranking?]
  · rw [hc]
    exact h.watched

/-- `f'` differs from `f` in its loads and its one ranking, which have become `s`, and in nothing
else that balancing looks at. -/
structure Moves (b : Nat) (f f' : Fleet) (s : LoadTable × Ranking) : Prop where
  alone : f'.Alone b s.2
  loads : f'.loads = s.1
  clock : f'.clock = f.clock
  directory : f'.directory = f.directory

theorem Alone.moves (h : f.Alone b k) : Moves b f f (f.loads, k) := ⟨h, rfl, rfl, rfl⟩

theorem Moves.trans (h : Moves b f f' s) {s' : LoadTable × Ranking} (h' : Moves b f' f'' s') :
    Moves b f f'' s' :=
  ⟨h'.alone, h'.loads, h'.clock.trans h.clock, h'.directory.trans h.directory⟩

theorem Moves.now (h : Moves b f f' s) : f'.now = f.now := congrArg Clock.now h.clock

theorem Alone.moves_loads (h : f.Alone b k) (t : LoadTable) :
    Moves b f { f with loads := t } (t, k) :=
  ⟨⟨h.only, h.held, h.ranked, h.watched⟩, rfl, rfl, rfl⟩

theorem Alone.moves_notify (h : f.Alone b k) (listeners : List Listener) (event : Event) :
    Moves b f (f.notify listeners event) (f.loads, k) :=
  ⟨⟨h.only, h.held, h.ranked, h.watched⟩, rfl, rfl, rfl⟩

theorem Alone.moves_telemetry (h : f.Alone b k) (g : Telemetry → Telemetry) (c : Nat) :
    Moves b f (f.modifyBalancer c fun x => { x with telemetry := g x.telemetry }) (f.loads, k) := by
  by_cases hc : b = c
  · subst hc
    exact ⟨h.modifyBalancer (fun _ hx => hx) rfl, rfl, rfl, rfl⟩
  · refine ⟨⟨fun d hd => ?_, ?_, ?_, h.watched⟩, rfl, rfl, rfl⟩
    · rw [balancer?_modifyBalancer, h.only d hd]
      split <;> rfl
    · rw [isHeld_modifyBalancer]
      exact h.held
    · rw [ranking?, balancer?_modifyBalancer, if_neg (Ne.symm hc)]
      exact h.ranked

theorem Moves.record (h : Moves b f f' s) (g : Telemetry → Telemetry) (c : Nat)
    (listeners : List Listener) (event : Event) :
    Moves b f ((f'.modifyBalancer c fun x => { x with telemetry := g x.telemetry }).notify
      listeners event) s := by
  have hm := h.alone.moves_telemetry g c
  rw [h.loads] at hm
  have hn := hm.alone.moves_notify listeners event
  rw [hm.loads] at hn
  exact (h.trans hm).trans hn

theorem Alone.moves_modifyRanking (h : f.Alone b k) (g : LoadTable × Ranking → LoadTable × Ranking)
    (hc : (g (f.loads, k)).2.queue.contents = k.queue.contents) :
    Moves b f (f.modifyRanking b g) (g (f.loads, k)) := by
  obtain ⟨⟨selection, telemetry, listeners⟩, hx, rfl⟩ := h.balancer
  simp only [modifyRanking, hx]
  have hl := (h.moves_loads (g (f.loads, k)).1).alone
  exact ⟨hl.modifyBalancer (fun _ _ => rfl) hc, rfl, rfl, rfl⟩

/-- What an announcement of a load makes of the table and the ranking. -/
def heard (now : Nat) (r : LoadRef) (since : Nat) (s : LoadTable × Ranking) :
    LoadTable × Ranking :=
  if r ∈ s.2.queue.contents then Ranking.loadDropped now (s.1.endpoint r) since s else s

theorem keeps_heard (h : Ranking.Tidy s) {now since : Nat} :
    Ranking.Keeps s (heard now r since s) := by
  rw [heard]
  split
  · exact h.keeps_loadDropped _ since
  · exact .refl h

theorem Alone.moves_announce (h : f.Alone b k) (ht : Ranking.Tidy (f.loads, k)) (since : Nat) :
    Moves b f (f.announce r since) (heard f.now r since (f.loads, k)) := by
  rw [announce, liveWatchers, heard]
  split
  · next hr =>
    rw [(h.watched r).1 hr, List.filter_cons_of_pos h.alive]
    exact h.moves_modifyRanking _ (ht.keeps_loadDropped _ since).contents
  · next hr =>
    rw [(h.watched r).2 hr]
    exact h.moves

theorem Alone.moves_drop (h : f.Alone b k) (ht : Ranking.Tidy (f.loads, k))
    {g : EndpointLoad → EndpointLoad} (hg : ∀ l, (g l).endpoint = l.endpoint) (since : Nat) :
    Moves b f (announce { f with loads := f.loads.update r g } r since)
      (heard f.now r since (f.loads.update r g, k)) :=
  (h.moves_loads _).trans ((h.moves_loads _).alone.moves_announce (ht.update hg) since)

def penalized (now : Nat) (r : LoadRef) (latency : Duration) (s : LoadTable × Ranking) :
    LoadTable × Ranking :=
  match ((s.1.load r).penalize now latency).1 with
  | none => s
  | some due => heard now r due (s.1.update r fun l => (l.penalize now latency).2, s.2)

def finished (now : Nat) (r : LoadRef) (succeeded : Bool) (latency : Duration)
    (s : LoadTable × Ranking) : LoadTable × Ranking :=
  let s := if succeeded then s else penalized now r latency s
  heard now r 0 (s.1.update r (·.release now 1 latency), s.2)

theorem keeps_penalized (h : Ranking.Tidy s) {now : Nat} {latency : Duration} :
    Ranking.Keeps s (penalized now r latency s) := by
  rw [penalized]
  split
  · exact .refl h
  · have hend : ∀ l : EndpointLoad, (l.penalize now latency).2.endpoint = l.endpoint :=
      fun l => l.endpoint_penalize latency
    have hu := h.keeps_update (r := r) hend
    exact hu.trans (keeps_heard hu.tidy)

theorem keeps_finished (h : Ranking.Tidy s) {now : Nat} {succeeded : Bool} {latency : Duration} :
    Ranking.Keeps s (finished now r succeeded latency s) := by
  have hp : Ranking.Keeps s (if succeeded then s else penalized now r latency s) := by
    split
    · exact .refl h
    · exact keeps_penalized h
  have hu := hp.tidy.keeps_update (r := r) (g := (·.release now 1 latency)) fun _ => rfl
  exact (hp.trans hu).trans (keeps_heard hu.tidy)

theorem Alone.moves_penalize (h : f.Alone b k) (ht : Ranking.Tidy (f.loads, k))
    (latency : Duration) :
    Moves b f (f.penalize r latency).2 (penalized f.now r latency (f.loads, k)) := by
  cases hdue : ((f.loads.load r).penalize f.now latency).1 with
  | none =>
    simp only [penalize, penalized, hdue]
    exact h.moves
  | some due =>
    simp only [penalize, penalized, hdue]
    exact h.moves_drop ht (fun l => l.endpoint_penalize latency) due

theorem Alone.moves_finish (h : f.Alone b k) (ht : Ranking.Tidy (f.loads, k)) (t : Ticket)
    (succeeded : Bool) (latency : Duration) :
    Moves b f (f.finish t succeeded latency)
      (finished f.now t.load succeeded latency (f.loads, k)) := by
  have hp : Moves b f (if succeeded then f else (f.penalize t.load latency).2)
      (if succeeded then (f.loads, k) else penalized f.now t.load latency (f.loads, k)) := by
    split
    · exact h.moves
    · exact h.moves_penalize ht latency
  have htp : Ranking.Tidy
      (if succeeded then (f.loads, k) else penalized f.now t.load latency (f.loads, k)) := by
    split
    · exact ht
    · exact (keeps_penalized ht).tidy
  rw [finish, finished]
  generalize (if succeeded then f else (f.penalize t.load latency).2) = f₁ at hp ⊢
  generalize (if succeeded then _ else _) = s₁ at hp htp ⊢
  have hr : Moves b f₁ (f₁.release t.load 1 latency)
      (heard f.now t.load 0 (s₁.1.update t.load (·.release f.now 1 latency), s₁.2)) := by
    have hd := hp.alone.moves_drop (r := t.load) (by rw [hp.loads]; exact htp)
      (g := (·.release f.now 1 latency)) (fun _ => rfl) 0
    rw [hp.loads, hp.now] at hd
    rw [release, hp.now, hp.loads]
    exact hd
  exact (hp.trans hr).record (·.onComplete (f₁.release t.load 1 latency).now succeeded) _ _ _

def switched (now : Nat) (r : LoadRef) (disabled : Bool) (s : LoadTable × Ranking) :
    LoadTable × Ranking :=
  let t := s.1.update r (·.setDisabled disabled)
  if (s.1.load r).disabled && !disabled then heard now r 0 (t, s.2) else (t, s.2)

theorem keeps_switched (h : Ranking.Tidy s) {now : Nat} {disabled : Bool} :
    Ranking.Keeps s (switched now r disabled s) := by
  have hu := h.keeps_update (r := r) (g := (·.setDisabled disabled)) fun _ => rfl
  rw [switched]
  split
  · exact hu.trans (keeps_heard hu.tidy)
  · exact hu

theorem Alone.moves_setDisabled (h : f.Alone b k) (ht : Ranking.Tidy (f.loads, k))
    (disabled : Bool) :
    Moves b f (f.setDisabled r disabled) (switched f.now r disabled (f.loads, k)) := by
  simp only [setDisabled, switched]
  split
  · exact h.moves_drop ht (g := (·.setDisabled disabled)) (fun _ => rfl) 0
  · exact h.moves_loads _

theorem Alone.next (h : f.Alone b k) (ht : Ranking.Tidy (f.loads, k)) :
    (f.next b).1 = (Ranking.take f.now (f.loads, k)).1.map (fun r => ⟨r, b, f.now, false⟩) ∧
      Moves b f (f.next b).2 (Ranking.take f.now (f.loads, k)).2 := by
  obtain ⟨⟨selection, telemetry, listeners⟩, hx, rfl⟩ := h.balancer
  have hc : (Ranking.take f.now (f.loads, k)).2.2.queue.contents = k.queue.contents :=
    ht.keeps_take.contents
  have hl := (h.moves_loads (Ranking.take f.now (f.loads, k)).2.1).alone
  simp only [Fleet.next, hx, Balancer.take]
  have hm : ∀ telemetry, Moves b f (setBalancer
      { f with loads := (Ranking.take f.now (f.loads, k)).2.1 } b
      ⟨.ranked (Ranking.take f.now (f.loads, k)).2.2, telemetry, listeners⟩)
      (Ranking.take f.now (f.loads, k)).2 :=
    fun _ => ⟨hl.modifyBalancer (fun _ _ => rfl) hc, rfl, rfl, rfl⟩
  cases htake : (Ranking.take f.now (f.loads, k)).1 with
  | none => exact ⟨rfl, hm _⟩
  | some r => exact ⟨rfl, (hm _).trans ((hm _).alone.moves_notify _ _)⟩

end Fleet

end LeastLoad
