import LeastLoad.Proofs.Fleet.Alone
import Mathlib.Data.List.Nodup

/-! # Who hears of a load

Each ranked balancer asks once for each of its members to be told when its load drops, and takes
the request back for those that leave. What is announced then reaches each balancer that holds the
load as a member exactly once, and no other. -/

namespace LeastLoad

namespace Fleet

variable {f : Fleet} {b : Nat} {r : LoadRef} {k : Ranking} {P Q : Nat → LoadRef → Prop}

/-- Each load is watched once by each balancer that `P` tells. -/
def Watched (watchers : Std.HashMap LoadRef (List Nat)) (P : Nat → LoadRef → Prop) : Prop :=
  ∀ r, (watchers.getD r []).Nodup ∧ ∀ b, b ∈ watchers.getD r [] ↔ P b r

theorem Watched.congr {watchers : Std.HashMap LoadRef (List Nat)} (h : Watched watchers P)
    (hPQ : ∀ b r, P b r ↔ Q b r) : Watched watchers Q :=
  fun r => ⟨(h r).1, fun b => ((h r).2 b).trans (hPQ b r)⟩

theorem Watched.liveWatchers (h : Watched f.watchers P) (hP : ∀ b r, P b r → f.isAlive b = true)
    (r : LoadRef) : f.liveWatchers r = f.watchers.getD r [] :=
  List.filter_eq_self.2 fun b hb => hP b r (((h r).2 b).1 hb)

theorem Watched.watch (h : Watched f.watchers P) (hP : ∀ b r, P b r → f.isAlive b = true)
    (b : Nat) (r : LoadRef) :
    Watched (f.watch b r).watchers fun b' r' => P b' r' ∨ b' = b ∧ r' = r := by
  intro r'
  simp only [Fleet.watch, h.liveWatchers hP, Std.HashMap.getD_insert, beq_iff_eq]
  obtain ⟨hn, hmem⟩ := h r'
  by_cases hrr : r = r'
  · subst hrr
    simp only [if_true, List.contains_eq_mem, decide_eq_true_eq, and_true]
    split
    · next hb =>
      refine ⟨hn, fun b' => (hmem b').trans ⟨.inl, ?_⟩⟩
      rintro (hb' | rfl)
      · exact hb'
      · exact (hmem b').1 hb
    · next hb =>
      refine ⟨List.nodup_append.2 ⟨hn, List.nodup_singleton b, ?_⟩, fun b' => ?_⟩
      · rintro a ha c hc rfl
        obtain rfl := List.mem_singleton.1 hc
        exact hb ha
      · rw [List.mem_append, hmem, List.mem_singleton]
  · rw [if_neg hrr]
    exact ⟨hn, fun b' => (hmem b').trans ⟨.inl, fun hb => hb.resolve_right fun he => hrr he.2.symm⟩⟩

theorem Watched.unwatch (h : Watched f.watchers P) (hP : ∀ b r, P b r → f.isAlive b = true)
    (b : Nat) (r : LoadRef) :
    Watched (f.unwatch b r).watchers fun b' r' => P b' r' ∧ ¬ (b' = b ∧ r' = r) := by
  intro r'
  simp only [Fleet.unwatch, h.liveWatchers hP, Std.HashMap.getD_insert, beq_iff_eq]
  obtain ⟨hn, hmem⟩ := h r'
  by_cases hrr : r = r'
  · subst hrr
    rw [if_pos rfl]
    refine ⟨hn.filter _, fun b' => ?_⟩
    rw [List.mem_filter, hmem, decide_eq_true_eq]
    simp
  · rw [if_neg hrr]
    exact ⟨hn, fun b' => (hmem b').trans ⟨fun hb => ⟨hb, fun he => hrr he.2.symm⟩, And.left⟩⟩

theorem Watched.foldl_watch (h : Watched f.watchers P) (hP : ∀ b r, P b r → f.isAlive b = true)
    (hb : f.isAlive b = true) (states : List LoadRef) :
    ∃ W, states.foldl (Fleet.watch · b) f = { f with watchers := W } ∧
      Watched W fun b' r => P b' r ∨ b' = b ∧ r ∈ states := by
  induction states generalizing f P with
  | nil => exact ⟨f.watchers, rfl, h.congr fun _ _ => by simp⟩
  | cons r states ih =>
    obtain ⟨W, hW, hwatched⟩ := ih (h.watch hP b r) (fun b' r' hr' => by
      rcases hr' with hr' | ⟨rfl, -⟩
      · exact hP b' r' hr'
      · exact hb) hb
    refine ⟨W, hW, hwatched.congr fun b' r' => ?_⟩
    rw [List.mem_cons]
    tauto

theorem Watched.foldl_unwatch (h : Watched f.watchers P) (hP : ∀ b r, P b r → f.isAlive b = true)
    (states : List LoadRef) :
    ∃ W, states.foldl (Fleet.unwatch · b) f = { f with watchers := W } ∧
      Watched W fun b' r => P b' r ∧ ¬ (b' = b ∧ r ∈ states) := by
  induction states generalizing f P with
  | nil => exact ⟨f.watchers, rfl, h.congr fun _ _ => by simp⟩
  | cons r states ih =>
    obtain ⟨W, hW, hwatched⟩ := ih (h.unwatch hP b r) fun b' r' hr' => hP b' r' hr'.1
    refine ⟨W, hW, hwatched.congr fun b' r' => ?_⟩
    rw [List.mem_cons]
    tauto

theorem ranking?_of_seats {f' : Fleet} (h : f'.seats = f.seats) (b : Nat) :
    f'.ranking? b = f.ranking? b := by
  rw [ranking?, ranking?, balancer?, balancer?, h]

theorem ranking?_modifyBalancer_of_ne {b' : Nat} (h : b ≠ b') (g : Balancer → Balancer) :
    (f.modifyBalancer b g).ranking? b' = f.ranking? b' := by
  rw [ranking?, balancer?_modifyBalancer, if_neg h]
  rfl

theorem ranking?_modifyBalancer {g : Balancer → Balancer}
    (h : ∀ x, (g x).selection = x.selection) (b b' : Nat) :
    (f.modifyBalancer b g).ranking? b' = f.ranking? b' := by
  rw [ranking?, balancer?_modifyBalancer, ranking?]
  split
  · cases f.balancer? b' with
    | none => rfl
    | some x =>
      change (g x).selection.ranking? = x.selection.ranking?
      rw [h]
  · rfl

theorem balancer_of_ranking? (h : f.ranking? b = some k) :
    ∃ telemetry listeners, f.balancer? b = some ⟨.ranked k, telemetry, listeners⟩ := by
  rw [ranking?] at h
  obtain ⟨⟨selection, telemetry, listeners⟩, hx, hsel⟩ := Option.bind_eq_some_iff.1 h
  refine ⟨telemetry, listeners, hx.trans ?_⟩
  cases selection with
  | grouped g => cases hsel
  | ranked k' =>
    obtain rfl : k' = k := Option.some.inj hsel
    rfl

end Fleet

end LeastLoad
