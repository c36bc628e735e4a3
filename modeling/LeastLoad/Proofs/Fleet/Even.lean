import LeastLoad.Proofs.Fleet.Calm
import Mathlib.Algebra.Group.Action.Defs
import Mathlib.Algebra.Order.BigOperators.Group.List
import Mathlib.Data.List.Pairwise

/-! # Requests without completions spread evenly

As long as nothing is finished, the counter of a state is the number of requests that were answered
with it. Each request goes to a least loaded state of its row, so that the counts of a row never
differ by more than one. -/

namespace LeastLoad

section Counts

variable {α : Type} {count count' : α → Nat} {row : List α} {e : α}

def WithinOne (count : α → Nat) (row : List α) : Prop :=
  ∀ x ∈ row, ∀ y ∈ row, count x ≤ count y + 1

variable [DecidableEq α]

theorem WithinOne.step (h : WithinOne count row)
    (hcount : ∀ x, count' x = count x + if e = x then 1 else 0)
    (hleast : e ∈ row → ∀ x ∈ row, count e ≤ count x) : WithinOne count' row := by
  intro x hx y hy
  have hxy := h x hx y hy
  rw [hcount, hcount]
  by_cases hex : e = x
  · subst hex
    have hle := hleast hx y hy
    rw [if_pos rfl]
    omega
  · rw [if_neg hex]
    omega

theorem sum_step (hcount : ∀ x, count' x = count x + if e = x then 1 else 0) :
    (row.map count').sum = (row.map count).sum + row.count e := by
  induction row with
  | nil => rfl
  | cons x row ih =>
    simp only [List.map_cons, List.sum_cons, List.count_cons, ih, hcount, beq_iff_eq,
      eq_comm (a := x)]
    omega

/-- Numbers that differ by at most one are their sum divided evenly, rounded down or up. -/
theorem eq_div_or_of_within {xs : List Nat} (h : WithinOne id xs) {x : Nat} (hx : x ∈ xs) :
    x = xs.sum / xs.length ∨ x = (xs.sum + xs.length - 1) / xs.length := by
  have hperm := List.perm_cons_erase hx
  have hmem : ∀ y ∈ xs.erase x, y ∈ xs := fun y hy => List.mem_of_mem_erase hy
  rw [hperm.sum_eq, hperm.length_eq, List.sum_cons, List.length_cons]
  generalize xs.erase x = ys at hmem
  have hsucc : ∀ m, ys.length * (m + 1) = ys.length * m + ys.length := Nat.mul_succ _
  have hall : ∀ m, m * (ys.length + 1) = ys.length * m + m := fun m => by
    rw [Nat.mul_succ, Nat.mul_comm]
  by_cases hle : ∀ y ∈ ys, x ≤ y
  · left
    have hlow := ys.card_nsmul_le_sum x hle
    have hhigh := ys.sum_le_card_nsmul (x + 1) fun y hy => h y (hmem y hy) x hx
    rw [smul_eq_mul] at hlow hhigh
    rw [hsucc] at hhigh
    refine (Nat.div_eq_of_lt_le ?_ ?_).symm
    · rw [hall]
      omega
    · rw [hall, hsucc]
      omega
  · right
    -- somewhere there is less than `x`, so that nowhere there is more
    simp only [not_forall, Nat.not_le] at hle
    obtain ⟨z, hz, hlt⟩ := hle
    obtain ⟨n, rfl⟩ : ∃ n, x = n + 1 := ⟨x - 1, by omega⟩
    have hlow := ys.card_nsmul_le_sum n fun y hy => Nat.le_of_succ_le_succ (h _ hx y (hmem y hy))
    have hhigh := ys.sum_le_card_nsmul (n + 1) fun y hy =>
      (h y (hmem y hy) z (hmem z hz)).trans (Nat.succ_le_of_lt hlt)
    rw [smul_eq_mul] at hlow hhigh
    rw [hsucc] at hhigh
    refine (Nat.div_eq_of_lt_le ?_ ?_).symm
    · rw [hall, hsucc]
      omega
    · rw [hall, hsucc, hsucc]
      omega

end Counts

namespace Strategy

variable {α β : Type} {strategy : Strategy} {size : Nat} {xs row row' : List α} {x : α}

theorem map_mem_rows (g : α → β) (h : row ∈ strategy.rows size xs) :
    row.map g ∈ strategy.rows size (xs.map g) := by
  cases strategy with
  | grouped =>
    obtain ⟨s, hs, rfl⟩ := List.mem_map.1 h
    rw [map_slice]
    refine List.mem_map_of_mem ?_
    rwa [List.length_map]
  | ranked =>
    rw [List.mem_singleton.1 h]
    exact List.mem_singleton_self _

theorem mem_of_mem_rows (h : row ∈ strategy.rows size xs) (hx : x ∈ row) : x ∈ xs := by
  cases strategy with
  | grouped =>
    obtain ⟨s, hs, rfl⟩ := List.mem_map.1 h
    exact mem_of_mem_slice hx
  | ranked => rwa [List.mem_singleton.1 h] at hx

theorem flatten_rows (xs : List α) (hsize : strategy = .grouped → 0 < size) :
    (strategy.rows size xs).flatten = xs := by
  cases strategy with
  | grouped => exact flatten_slices_partition xs (hsize rfl)
  | ranked => exact List.flatten_singleton

theorem eq_of_mem_rows (hsize : strategy = .grouped → 0 < size) (hxs : xs.Nodup)
    (h : row ∈ strategy.rows size xs) (h' : row' ∈ strategy.rows size xs) (hx : x ∈ row)
    (hx' : x ∈ row') : row = row' := by
  rw [← flatten_rows xs hsize, List.nodup_flatten] at hxs
  by_contra hne
  have : Std.Symm (@List.Disjoint α) := ⟨fun _ _ hd => hd.symm⟩
  exact hxs.2.forall h h' hne hx hx'

theorem nodup_of_mem_rows (hsize : strategy = .grouped → 0 < size) (hxs : xs.Nodup)
    (h : row ∈ strategy.rows size xs) : row.Nodup := by
  rw [← flatten_rows xs hsize, List.nodup_flatten] at hxs
  exact hxs.1 row h

theorem rows_eq (h : strategy = .ranked ∨ xs.length ≤ size) (hne : xs ≠ []) :
    strategy.rows size xs = [xs] := by
  cases strategy with
  | grouped => exact slices_partition_of_le hne (h.resolve_left nofun)
  | ranked => rfl

end Strategy

namespace Fleet

variable {f f' f₀ start : Fleet} {b size : Nat} {c : LoadSettings} {states : List LoadRef}
  {strategy : Strategy} {es row : List Endpoint} {past : List (Fleet × Deed)} {d : Deed}

/-- One balancer is asked while no counter has passed the largest signed number, tasks may be given
up but are not finished, and the clock moves forward. -/
def Asking (b : Nat) (f : Fleet) : Deed → Prop
  | .call (.next b') => b' = b ∧ ∀ r, (f.loads.load r).inFlight.toNat < 2 ^ 31
  | .call (.advance d) => f.now + d.nanos ≤ horizon
  | .call (.set _) | .dropTask _ => True
  | _ => False

def asked (b : Nat) (past : List (Fleet × Deed)) : Nat := past.countP (·.2.asks = some b)

def handed (b : Nat) (e : Endpoint) (past : List (Fleet × Deed)) : Nat :=
  past.countP fun (f, d) =>
    d.asks = some b ∧ (f.next b).1.map (f.loads.endpoint ·.load) = some e

def hits (b : Nat) (row : List Endpoint) (past : List (Fleet × Deed)) : Nat :=
  past.countP fun (f, d) =>
    d.asks = some b ∧ (f.drawn b).map (·.map f.loads.endpoint) = some row

/-- Loads show how often each endpoint was handed out, which is evenly over each row. -/
structure Even (f : Fleet) (b size : Nat) (states : List LoadRef) (strategy : Strategy)
    (c : LoadSettings) (es : List Endpoint) (past : List (Fleet × Deed)) : Prop where
  steady : f.Steady b size states strategy c
  endpoints : states.map f.loads.endpoint = es
  counts : ∀ r ∈ states, (f.loads.load r).inFlight.toNat = handed b (f.loads.endpoint r) past
  bound : ∀ r, (f.loads.load r).inFlight.toNat ≤ asked b past
  within : ∀ row ∈ strategy.rows size es, WithinOne (handed b · past) row
  total : (es.map (handed b · past)).sum = asked b past
  drawn : strategy = .grouped → ∀ row ∈ strategy.rows size es,
    (row.map (handed b · past)).sum = hits b row past

theorem Even.idle (h : f.Even b size states strategy c es past) (hd : d.asks = none)
    (hl : f'.loads = f.loads) (hsel : ∀ b, f'.selection? b = f.selection? b)
    (hnow : f.now ≤ f'.now) : f'.Even b size states strategy c es ((f, d) :: past) := by
  have hasked : asked b ((f, d) :: past) = asked b past := by simp [asked, hd]
  have hhanded : ∀ e, handed b e ((f, d) :: past) = handed b e past := by simp [handed, hd]
  have hhits : ∀ row, hits b row ((f, d) :: past) = hits b row past := by simp [hits, hd]
  refine ⟨h.steady.still hl hsel hnow, ?_, ?_, ?_, ?_, ?_, ?_⟩
  · rw [hl]
    exact h.endpoints
  · simp only [hl, hhanded]
    exact h.counts
  · simp only [hl, hasked]
    exact h.bound
  · simp only [hhanded]
    exact h.within
  · simp only [hhanded, hasked]
    exact h.total
  · simp only [hhanded, hhits]
    exact h.drawn

theorem Steady.pos (h : f.Steady b size states strategy c) (hs : strategy = .grouped) :
    0 < size := by
  subst hs
  obtain ⟨hpos, -⟩ := h.members
  exact hpos

theorem Even.next (h : f.Even b size states strategy c es past) (hes : es.Nodup) (hne : es ≠ [])
    (hsmall : ∀ r, (f.loads.load r).inFlight.toNat < 2 ^ 31) :
    (f.perform (.call (.next b))).Even b size states strategy c es
      ((f, .call (.next b)) :: past) := by
  obtain ⟨row, hrow, t, ⟨hn, hmem, hleast⟩, hdrawn⟩ :=
    h.steady.hands (fun hnil => hne (by rw [← h.endpoints, hnil]; rfl)) hsmall
  have hend := (h.steady.coherent.shifts_next b).1.loads.endpoint
  have hin : t.load ∈ states := Strategy.mem_of_mem_rows hrow hmem
  have hasked : asked b ((f, .call (.next b)) :: past) = asked b past + 1 := by
    simp [asked, Deed.asks]
  have hhanded : ∀ e, handed b e ((f, .call (.next b)) :: past) =
      handed b e past + if f.loads.endpoint t.load = e then 1 else 0 := fun e => by
    simp [handed, Deed.asks, hn, List.countP_cons]
  have hrow' : row.map f.loads.endpoint ∈ strategy.rows size es :=
    h.endpoints ▸ Strategy.map_mem_rows _ hrow
  have hmem' : f.loads.endpoint t.load ∈ row.map f.loads.endpoint := List.mem_map_of_mem hmem
  rw [perform_next_some hn]
  have hload : ∀ r, ((f.next b).2.loads.load r).inFlight.toNat = (f.loads.load r).inFlight.toNat +
      if t.load = r ∧ r.place < f.loads.states.size then 1 else 0 := fun r => by
    rw [(h.steady.calm.next b).2, hn]
    simp only [Option.map_some, Option.some_inj]
    split
    · rw [UInt32.toNat_add, UInt32.toNat_one]
      have hlt := hsmall r
      exact Nat.mod_eq_of_lt (by omega)
    · rfl
  refine ⟨h.steady.next.still rfl (fun _ => rfl) le_rfl, ?_, fun r hr => ?_, fun r => ?_,
    fun row' hr => ?_, ?_, fun hs row' hr => ?_⟩
  · rw [← h.endpoints]
    exact List.map_congr_left fun r _ => hend r
  · change ((f.next b).2.loads.load r).inFlight.toNat =
      handed b ((f.next b).2.loads.endpoint r) _
    rw [hload, hend, hhanded, ← h.counts r hr]
    congr 1
    refine if_congr ⟨fun heq => ?_, fun heq => ?_⟩ rfl rfl
    · rw [heq.1]
    · exact ⟨h.steady.apart.one r hr _ hin heq, h.steady.apart.place r hr⟩
  · change ((f.next b).2.loads.load r).inFlight.toNat ≤ _
    rw [hload, hasked]
    have hle := h.bound r
    split <;> omega
  · refine (h.within row' hr).step hhanded fun hmem'' e he => ?_
    -- the row is the one that was looked at
    obtain rfl := Strategy.eq_of_mem_rows h.steady.pos hes hrow' hr hmem' hmem''
    obtain ⟨r, hr, rfl⟩ := List.mem_map.1 he
    rw [← h.counts _ hin, ← h.counts r (Strategy.mem_of_mem_rows hrow hr)]
    exact UInt32.le_iff_toNat_le.1 (hleast r hr)
  · rw [sum_step hhanded, h.total, hasked,
      List.count_eq_one_of_mem hes (Strategy.mem_of_mem_rows hrow' hmem')]
  · have hhits : hits b row' ((f, .call (.next b)) :: past) =
        hits b row' past + if row.map f.loads.endpoint = row' then 1 else 0 := by
      simp [hits, Deed.asks, hdrawn hs, List.countP_cons]
    rw [sum_step hhanded, h.drawn hs row' hr, hhits]
    congr 1
    split
    · next heq =>
      rw [← heq] at hr ⊢
      exact List.count_eq_one_of_mem (Strategy.nodup_of_mem_rows h.steady.pos hes hr) hmem'
    · next hrows =>
      refine List.count_eq_zero_of_not_mem fun hmem'' => hrows ?_
      exact Strategy.eq_of_mem_rows h.steady.pos hes hrow' hr hmem' hmem''

theorem Blank.even (h : start.Blank c) {s : Settings} {listeners : List Listener}
    (hok : start.build (strategy.selection s) s.telemetry listeners es = .ok (b, f))
    (hsize : strategy = .grouped → 0 < s.groupSize) :
    ∃ states, f.Even b s.groupSize states strategy c es [] := by
  obtain ⟨states, hes, hsteady, hzero⟩ := h.steady hok hsize
  refine ⟨states, hsteady, hes, fun r _ => by rw [hzero]; rfl, fun r => by rw [hzero]; exact le_rfl,
    fun _ _ _ _ _ _ => Nat.zero_le 1, ?_, fun _ row _ => ?_⟩
  · exact List.sum_eq_zero fun x hx => by simp_all [handed]
  · exact List.sum_eq_zero fun x hx => by simp_all [handed]

theorem Runs.even (h : Runs (Asking b) f₀ past f) (hes : es.Nodup) (hne : es ≠ [])
    (h₀ : f₀.Even b size states strategy c es []) :
    f.Even b size states strategy c es past := by
  induction h with
  | start => exact h₀
  | @step past f d _ hd ih =>
    cases d with
    | call call =>
      cases call with
      | next b' =>
        obtain ⟨rfl, hsmall⟩ := hd
        exact ih.next hes hne hsmall
      | advance d =>
        exact ih.idle rfl rfl (fun _ => rfl)
          ((Nat.le_add_right _ _).trans (Clock.now_advance hd).ge)
      | set d => exact ih.idle rfl rfl (fun _ => rfl) (Clock.le_now_set _ d)
      | _ => exact hd.elim
    | dropTask i => exact ih.idle rfl rfl (fun _ => rfl) le_rfl
    | _ => exact hd.elim

/-- Every request is answered. Over a row the endpoints have been handed out equally often up to
one; over a group that makes as many times as it was drawn, and over all endpoints, where these
are one row, the number of requests divided evenly. -/
theorem Runs.handed_evenly {s : Settings} {listeners : List Listener} (hstart : start.Blank c)
    (hbuild : start.build (strategy.selection s) s.telemetry listeners es = .ok (b, f₀))
    (hes : es.Nodup) (hne : es ≠ []) (hsize : strategy = .grouped → 0 < s.groupSize)
    (h : Runs (Asking b) f₀ past f) :
    (es.map (handed b · past)).sum = asked b past ∧
    (strategy = .ranked ∨ es.length ≤ s.groupSize → ∀ e ∈ es,
      handed b e past = asked b past / es.length ∨
        handed b e past = (asked b past + es.length - 1) / es.length) ∧
    (strategy = .grouped → ∀ span ∈ partition es.length s.groupSize,
      (∀ e ∈ span.slice es, ∀ e' ∈ span.slice es, handed b e past ≤ handed b e' past + 1) ∧
        ((span.slice es).map (handed b · past)).sum = hits b (span.slice es) past) := by
  obtain ⟨states, h₀⟩ := hstart.even hbuild hsize
  have heven := h.even hes hne h₀
  refine ⟨heven.total, fun hone e he => ?_, fun hs span hspan => ?_⟩
  · have hwithin := heven.within es
      (by rw [Strategy.rows_eq hone hne]; exact List.mem_singleton_self _)
    have hcounts : WithinOne id (es.map (handed b · past)) := by
      intro x hx y hy
      obtain ⟨e, he, rfl⟩ := List.mem_map.1 hx
      obtain ⟨e', he', rfl⟩ := List.mem_map.1 hy
      exact hwithin e he e' he'
    have hdiv := eq_div_or_of_within hcounts (List.mem_map_of_mem he)
    rwa [heven.total, List.length_map] at hdiv
  · subst hs
    have hrow : span.slice es ∈ Strategy.rows s.groupSize es .grouped := List.mem_map_of_mem hspan
    exact ⟨heven.within _ hrow, heven.drawn rfl _ hrow⟩

/-- Two requests, with a pause between them, to a ranked balancer over two endpoints. -/
theorem Runs.handed_evenly_of_two :
    ∃ (start f₀ f : Fleet) (past : List (Fleet × Deed)), start.Blank {} ∧
      start.build (Strategy.selection {} .ranked) ({} : Settings).telemetry [] [⟨1⟩, ⟨2⟩] =
        .ok (0, f₀) ∧ Runs (Asking 0) f₀ past f ∧
      asked 0 past = 2 ∧ handed 0 ⟨1⟩ past = 1 ∧ handed 0 ⟨2⟩ past = 1 := by
  obtain ⟨start, hstart, hzero⟩ := exists_blank {}
  obtain ⟨b, f₀, hok⟩ := exists_build hstart.directory (by decide)
    (Strategy.selection {} .ranked) ({} : Settings).telemetry (by decide) [] [⟨1⟩, ⟨2⟩]
  obtain ⟨hb, -⟩ := hstart.rooted.selection?_build hok
  rw [hstart.seats] at hb
  obtain rfl : b = 0 := hb
  obtain ⟨states, h₀⟩ := hstart.even hok nofun
  have hes : ([⟨1⟩, ⟨2⟩] : List Endpoint).Nodup := by decide
  have hsmall : ∀ {f past}, Runs (Asking 0) f₀ past f → asked 0 past ≤ 1 →
      ∀ r, (f.loads.load r).inFlight.toNat < 2 ^ 31 := fun h hle r => by
    have hbound := (h.even hes (by decide) h₀).bound r
    omega
  have hfirst := (@Runs.start (Asking 0) f₀).step (.call (.next 0))
    ⟨rfl, hsmall .start (by decide)⟩
  have hpause := hfirst.step (.call (.set ⟨1⟩)) trivial
  have hrun := hpause.step (.call (.next 0)) ⟨rfl, hsmall hpause le_rfl⟩
  have hasked : asked 0
      [((f₀.perform (.call (.next 0))).perform (.call (.set ⟨1⟩)), .call (.next 0)),
        (f₀.perform (.call (.next 0)), .call (.set ⟨1⟩)), (f₀, .call (.next 0))] = 2 := rfl
  obtain ⟨-, hone, -⟩ := hrun.handed_evenly hstart hok hes (by decide) nofun
  rw [hasked] at hone
  exact ⟨start, f₀, _, _, hstart, hok, hrun, hasked,
    (hone (.inl rfl) ⟨1⟩ (by decide)).elim id id, (hone (.inl rfl) ⟨2⟩ (by decide)).elim id id⟩

end Fleet

end LeastLoad
