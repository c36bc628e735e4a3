import LeastLoad.Fleet.Builder
import LeastLoad.Proofs.Config.Arguments
import Mathlib.Data.List.Basic

/-! # The last call wins

A builder is told its settings one at a time, or several at once as a command line gives them. Each
of these calls lays its values over the configuration, so that what comes out is decided by the last
call for each setting alone: calls for different settings may change places, and what a later call
replaces might as well have been anything else. -/

namespace LeastLoad

namespace Settings

/-- All that nothing can run with, in the order in which it is looked for. -/
def faults (s : Settings) : List InvalidSetting :=
  (if s.groupSize = 0 then [.groupSize 0] else []) ++
  (if s.windows = 0 then [.windowCount 0] else []) ++
  match s.failureSustainMillis with
  | none => []
  | some ms =>
    (if ms < 0 then [.failureSustain ms] else []) ++
    (if s.failureWeight = 0 then [.failureWeight 0] else [])

theorem validate_eq (s : Settings) :
    s.validate = match s.faults.head? with
      | none => .ok ()
      | some e => .error e := by
  by_cases hg : s.groupSize = 0
  · simp [validate, faults, hg]
  by_cases hw : s.windows = 0
  · simp [validate, faults, hg, hw]
  cases hs : s.failureSustainMillis with
  | none => simp [validate, faults, hg, hw, hs]
  | some ms =>
    by_cases hms : ms < 0
    · simp [validate, faults, hg, hw, hs, hms]
    by_cases hf : s.failureWeight = 0 <;> simp [validate, faults, hg, hw, hs, hms, hf]

theorem faults_eq_nil (s : Settings) : s.faults = [] ↔ 0 < s.groupSize ∧ 0 < s.windows ∧
    ∀ ms, s.failureSustainMillis = some ms → 0 ≤ ms ∧ 0 < s.failureWeight := by
  cases hs : s.failureSustainMillis <;> simp [faults, hs, Nat.pos_iff_ne_zero]

end Settings

namespace Config

namespace Call

def overrides (c : Call) : List Override :=
  match c.source with
  | .override o => [o]
  | .arguments a => a.overrides
  | _ => []

theorem apply_source (l : Layers) (c : Call) : l.apply c.source = l.layAll c.overrides := by
  cases c <;> rfl

theorem bind_map_writes {α : Type} (o : Option α) (make : α → Override) (k : Key) :
    (o.map make).bind (·.writes k) = o.bind fun x => (make x).writes k := by
  cases o <;> rfl

theorem filterMap_overrides (a : Arguments) (k : Key) :
    a.overrides.filterMap (·.writes k) = ((arguments a).writes k).toList := by
  rw [Arguments.overrides, List.filterMap_filterMap, List.filterMap_eq_flatMap_toList]
  simp only [List.flatMap_cons, List.flatMap_nil, id_eq, bind_map_writes]
  cases k <;> simp [writes, Override.writes]

theorem filterMap_writes (c : Call) (k : Key) :
    c.overrides.filterMap (·.writes k) = (c.writes k).toList := by
  cases c with
  | arguments a => exact filterMap_overrides a k
  | _ => cases k <;> rfl

theorem latest_overrides (calls : List Call) :
    latest Override.writes (calls.flatMap overrides) = latest writes calls := by
  funext k
  simp only [latest, List.filterMap_eq_flatMap_toList, List.flatMap_assoc]
  simp only [← List.filterMap_eq_flatMap_toList, filterMap_writes]

def asked (calls : List Call) : Settings := (latest writes calls).settings

theorem settings_foldl {calls : List Call} (hfits : ∀ c ∈ calls, c.Fits) :
    (calls.foldl (fun l c => l.apply c.source) ({} : Layers)).settings =
      match (asked calls).faults.head? with
      | none => .ok (asked calls)
      | some e => .error (.invalid e) := by
  have hlayers : ∀ l : Layers, calls.foldl (fun l c => l.apply c.source) l =
      l.layAll (calls.flatMap overrides) := by
    intro l
    induction calls generalizing l with
    | nil => rfl
    | cons c calls ih =>
      rw [List.foldl_cons, apply_source, ih fun c hc => hfits c (List.mem_cons_of_mem _ hc),
        List.flatMap_cons, Layers.layAll, Layers.layAll, Layers.layAll, List.foldl_append]
  have hfind : ∀ k : Key, (Layers.layAll {} (calls.flatMap overrides)).table.find? k.name =
      (latest writes calls k).map k.value := by
    intro k
    rw [Layers.find?_layAll, latest_overrides]
    exact Option.or_none
  have hsettings := Table.settings_of_find? hfind fun k x hx => by
    obtain ⟨c, hc, hx⟩ := List.mem_filterMap.1 (List.mem_of_getLast? hx)
    exact hfits c hc k x hx
  rw [hlayers, Layers.settings, Layers.extract, Layers.readable_layAll, if_pos rfl, hsettings]
  dsimp only
  rw [Settings.validate_eq, ← asked]
  cases (asked calls).faults.head? <;> rfl

theorem latest_swap {before after : List Call} {c c' : Call}
    (h : ∀ k : Key, c.writes k = none ∨ c'.writes k = none) :
    latest writes (before ++ c' :: c :: after) = latest writes (before ++ c :: c' :: after) := by
  funext k
  have hpair : latest writes [c', c] k = latest writes [c, c'] k := by
    obtain hk | hk := h k <;> simp [latest, hk]
  change latest writes (before ++ ([c', c] ++ after)) k =
    latest writes (before ++ ([c, c'] ++ after)) k
  rw [latest_append, latest_append, latest_append, latest_append, hpair]

theorem latest_replace {before after : List Call} {c c' : Call}
    (h : ∀ k : Key, c.writes k = c'.writes k ∨ ∃ d ∈ after, (d.writes k).isSome) :
    latest writes (before ++ c' :: after) = latest writes (before ++ c :: after) := by
  funext k
  change latest writes (before ++ ([c'] ++ after)) k = latest writes (before ++ ([c] ++ after)) k
  simp only [latest_append, latest_singleton]
  obtain hk | ⟨d, hd, hk⟩ := h k
  · rw [hk]
  · obtain ⟨x, hx⟩ := Option.isSome_iff_exists.1 hk
    have hlater : (latest writes after k).isSome :=
      List.getLast?_isSome.2 (List.ne_nil_of_mem (List.mem_filterMap.2 ⟨d, hd, hx⟩))
    simp only [Option.or_of_isSome, hlater]

end Call

end Config

namespace Builder

open Config (Call)

def calls (b : Builder) (cs : List Call) : Builder := cs.foldl (fun b c => b.configure c.source) b

theorem layers_calls (b : Builder) (cs : List Call) :
    (b.calls cs).layers = cs.foldl (fun l c => l.apply c.source) b.layers := by
  induction cs generalizing b with
  | nil => rfl
  | cons c cs ih => exact ih _

/-- The settings are those written last, or the first fault that these have. Neighbouring calls for
different settings may change places, and what is written later may have been anything before. -/
theorem settings_calls (endpoints : List Endpoint) (listeners : List Listener) (fleet : Fleet)
    (cs : List Call) (hfits : ∀ c ∈ cs, c.Fits) :
    let b : Builder := { endpoints, listeners, fleet }
    let s := Call.asked cs
    ((b.calls cs).settings = match s.faults.head? with
      | none => .ok s
      | some e => .error (.invalid e)) ∧
    (s.faults = [] ↔ 0 < s.groupSize ∧ 0 < s.windows ∧
      ∀ ms, s.failureSustainMillis = some ms → 0 ≤ ms ∧ 0 < s.failureWeight) ∧
    (∀ before c c' after, cs = before ++ c :: c' :: after →
      (∀ k, c.writes k = none ∨ c'.writes k = none) →
      (b.calls (before ++ c' :: c :: after)).settings = (b.calls cs).settings) ∧
    (∀ before c c' after, cs = before ++ c :: after → c'.Fits →
      (∀ k, c.writes k = c'.writes k ∨ ∃ d ∈ after, (d.writes k).isSome) →
      (b.calls (before ++ c' :: after)).settings = (b.calls cs).settings) := by
  intro b s
  have hsettings : ∀ cs : List Call, (∀ c ∈ cs, c.Fits) → (b.calls cs).settings =
      match (Call.asked cs).faults.head? with
      | none => .ok (Call.asked cs)
      | some e => .error (.invalid e) := fun cs hcs => by
    rw [settings, layers_calls]
    exact Call.settings_foldl hcs
  refine ⟨hsettings cs hfits, s.faults_eq_nil, ?_, ?_⟩
  · rintro before c c' after rfl hapart
    have hswapped : ∀ d ∈ before ++ c' :: c :: after, d.Fits := by
      simp only [List.forall_mem_append, List.forall_mem_cons] at hfits ⊢
      exact ⟨hfits.1, hfits.2.2.1, hfits.2.1, hfits.2.2.2⟩
    rw [hsettings _ hswapped, hsettings _ hfits, Call.asked, Call.latest_swap hapart, ← Call.asked]
  · rintro before c c' after rfl hc' hlater
    have hreplaced : ∀ d ∈ before ++ c' :: after, d.Fits := by
      simp only [List.forall_mem_append, List.forall_mem_cons] at hfits ⊢
      exact ⟨hfits.1, hc', hfits.2.2⟩
    rw [hsettings _ hreplaced, hsettings _ hfits, Call.asked, Call.latest_replace hlater,
      ← Call.asked]

/-- Three settings that nothing can run with, replaced by a command line. -/
theorem settings_calls_of_five :
    let b : Builder := { fleet := { clock := ⟨0, Nat.zero_le _⟩ } }
    let a : Config.Arguments :=
      { windows := some 5, failureSustainMillis := some 30000, failureWeight := some 2 }
    let cs : List Call := [.windows 0, .failureSustainMillis (-5), .failureWeight 0,
      .lookBack ⟨1_500_999_999⟩, .arguments a]
    Config.Arguments.read ["--heddle-num-windows=5", "--heddle-failure-sustain-ms", "30000",
      "--heddle-failure-weight=2"] = .ok a ∧
    (∀ c ∈ cs, c.Fits) ∧ (b.calls cs).settings = .ok
      { lookBackMillis := 1500, windows := 5, failureSustainMillis := some 30000
        failureWeight := 2 } := by
  intro b a cs
  have hread : Config.Arguments.read ["--heddle-num-windows=5", "--heddle-failure-sustain-ms",
      "30000", "--heddle-failure-weight=2"] = .ok a := by rfl
  have hfits : ∀ c ∈ cs, c.Fits := by
    intro c hc
    simp only [cs, List.mem_cons, List.not_mem_nil, or_false] at hc
    obtain rfl | rfl | rfl | rfl | rfl := hc
    case inr.inr.inr.inr => exact Config.Arguments.fits_read hread
    all_goals
      intro k x hx
      cases k <;> cases hx
      simp [Config.Key.Fits, signedMax64, UInt64.size, UInt32.size]
  exact ⟨hread, hfits, (settings_calls [] [] _ cs hfits).1⟩

end Builder

end LeastLoad
