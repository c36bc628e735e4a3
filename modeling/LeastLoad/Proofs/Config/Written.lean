import LeastLoad.Config.Layers
import Mathlib.Data.List.Induction

/-! # What is written to a configuration, and what is read from it

Each setting stands in the table under a name of its own, so that laying a value over the table
changes the value of one name. What is read after any number of values is, for each setting, the
one that was laid last. -/

namespace LeastLoad.Config

namespace Table

variable {t : Table} {name name' : String} {v : Value}

theorem find?_append (t t' : Table) (name : String) :
    (t ++ t').find? name = (t'.find? name).or (t.find? name) := by
  simp only [find?, List.reverse_append, List.find?_append]
  cases t'.reverse.find? (·.1 = name) <;> rfl

theorem find?_filter_ne (t : Table) (name name' : String) :
    find? (t.filter (·.1 ≠ name)) name' = if name = name' then none else t.find? name' := by
  simp only [find?, ← List.filter_reverse, List.find?_filter]
  split
  · next h =>
    subst h
    simp
  · next h =>
    congr 2
    funext x
    by_cases hx : x.1 = name' <;> simp [hx, Ne.symm h]

theorem find?_set (t : Table) (name : String) (v : Value) (name' : String) :
    (t.set name v).find? name' = if name = name' then some v else t.find? name' := by
  rw [set, find?_append, find?_filter_ne]
  by_cases h : name = name' <;> simp [find?, h]

end Table

inductive Key where
  | groupSize
  | subStrategy
  | lookBackMillis
  | windows
  | failureSustainMillis
  | failureWeight
  | rateWindowMillis
  | sampleSize
  | stem
deriving DecidableEq

namespace Key

abbrev Content : Key → Type
  | groupSize | lookBackMillis | windows | failureWeight | rateWindowMillis | sampleSize => Nat
  | subStrategy => SubStrategy
  | failureSustainMillis => Int
  | stem => String

def name : Key → String
  | groupSize => "group_size"
  | subStrategy => "sub_strategy"
  | lookBackMillis => "look_back_ms"
  | windows => "num_windows"
  | failureSustainMillis => "failure_sustain_ms"
  | failureWeight => "failure_weight"
  | rateWindowMillis => "rate_window_ms"
  | sampleSize => "cov_sample_size"
  | stem => "metrics_prefix"

def value : (k : Key) → k.Content → Value
  | groupSize, n | lookBackMillis, n | windows, n | failureWeight, n | rateWindowMillis, n
  | sampleSize, n => .unsigned n
  | subStrategy, s => .text (strategyName s)
  | failureSustainMillis, n => .signed n
  | stem, s => .text s

def Fits : (k : Key) → k.Content → Prop
  | groupSize, n | lookBackMillis, n | windows, n | rateWindowMillis, n | sampleSize, n =>
    n < UInt64.size
  | failureWeight, n => n < UInt32.size
  | failureSustainMillis, n => -(signedMax64 : Int) - 1 ≤ n ∧ n ≤ signedMax64
  | subStrategy, _ | stem, _ => True

end Key

abbrev Written := (k : Key) → Option k.Content

def latest {α : Type} (writes : α → Written) (xs : List α) : Written :=
  fun k => (xs.filterMap (writes · k)).getLast?

theorem latest_append {α : Type} (writes : α → Written) (xs ys : List α) (k : Key) :
    latest writes (xs ++ ys) k = (latest writes ys k).or (latest writes xs k) := by
  rw [latest, List.filterMap_append, List.getLast?_append]
  rfl

theorem latest_singleton {α : Type} (writes : α → Written) (x : α) :
    latest writes [x] = writes x := by
  funext k
  cases h : writes x k <;> simp [latest, h]

def Override.writes : Override → Written
  | .groupSize n, .groupSize => some n
  | .subStrategy s, .subStrategy => some s
  | .lookBackMillis n, .lookBackMillis => some n
  | .windows n, .windows => some n
  | .failureSustainMillis n, .failureSustainMillis => some n
  | .failureWeight n, .failureWeight => some n
  | .rateWindowMillis n, .rateWindowMillis => some n
  | .sampleSize n, .sampleSize => some n
  | .stem s, .stem => some s
  | _, _ => none

theorem Override.map_writes (o : Override) (k : Key) :
    (o.writes k).map k.value = if o.name = k.name then some o.value else none := by
  cases o <;> cases k <;> rfl

theorem Override.merge_table (t : Table) (o : Override) :
    t.merge o.table = t.set o.name o.value := by
  have hvalue : ∀ old : Value, old.merge o.value = o.value := fun old => by cases o <;> rfl
  rw [table, Table.merge, Table.merge]
  cases t.find? o.name with
  | none => rfl
  | some old => exact congrArg (t.set o.name) (hvalue old)

namespace Layers

theorem find?_lay (l : Layers) (o : Override) (k : Key) : (l.lay o.table).table.find? k.name =
    ((o.writes k).map k.value).or (l.table.find? k.name) := by
  change (l.table.merge o.table).find? k.name = _
  rw [Override.merge_table, Table.find?_set, Override.map_writes]
  split <;> rfl

def layAll (l : Layers) (os : List Override) : Layers := os.foldl (fun l o => l.lay o.table) l

theorem find?_layAll (l : Layers) (os : List Override) (k : Key) :
    (l.layAll os).table.find? k.name =
      ((latest Override.writes os k).map k.value).or (l.table.find? k.name) := by
  induction os using List.reverseRecOn with
  | nil => rfl
  | append_singleton os o ih =>
    rw [layAll, List.foldl_append, latest_append, latest_singleton, Option.map_or,
      Option.or_assoc, ← ih]
    exact find?_lay _ o k

theorem readable_layAll (l : Layers) (os : List Override) :
    (l.layAll os).readable = l.readable := by
  induction os generalizing l with
  | nil => rfl
  | cons o os ih => exact ih _

end Layers

/-- The settings for which something is written have that value, the others their default. -/
def Written.settings (w : Written) : Settings :=
  let base : Settings := {}
  { groupSize := (w .groupSize).getD base.groupSize
    subStrategy := (w .subStrategy).getD base.subStrategy
    lookBackMillis := (w .lookBackMillis).getD base.lookBackMillis
    windows := (w .windows).getD base.windows
    failureSustainMillis := w .failureSustainMillis
    failureWeight := (w .failureWeight).getD base.failureWeight
    rateWindowMillis := (w .rateWindowMillis).getD base.rateWindowMillis
    sampleSize := (w .sampleSize).getD base.sampleSize
    stem := (w .stem).getD base.stem }

theorem Value.natural_unsigned {size n : Nat} (expected name : String) (h : n < size)
    (hsize : size ≤ UInt64.size) : natural size expected name (.unsigned n) = .ok n := by
  have hn : (0 : Int) ≤ n ∧ (n : Int) ≤ size - 1 := by omega
  rw [natural, integerIn, integer?, if_pos (by omega)]
  dsimp only
  rw [if_pos hn]
  rfl

theorem Value.optionalSigned_signed {n : Int} (name : String)
    (h : -(signedMax64 : Int) - 1 ≤ n ∧ n ≤ signedMax64) :
    optionalSigned name (.signed n) = .ok (some n) := by
  have hfits : fitsSigned64 n = true := by simp [fitsSigned64, h]
  simp only [optionalSigned, integerIn, integer?, hfits, if_true, h]
  rfl

theorem Value.strategy_text (name : String) (s : SubStrategy) :
    strategy name (.text (strategyName s)) = .ok s := by
  cases s <;> rfl

theorem Value.string_text (name s : String) : string name (.text s) = .ok s := rfl

namespace Table

variable {t : Table} {w : Written}

theorem read_of_find? {k : Key} {reader : String → Value → Except ConfigError k.Content}
    (hfind : t.find? k.name = (w k).map k.value)
    (hreader : ∀ x, w k = some x → reader k.name (k.value x) = .ok x) (default : k.Content) :
    t.read k.name reader default = .ok ((w k).getD default) := by
  rw [read, hfind]
  cases hw : w k with
  | none => rfl
  | some x => exact hreader x hw

theorem read_failureSustainMillis
    (hfind : t.find? "failure_sustain_ms" = (w .failureSustainMillis).map Value.signed)
    (hfits : ∀ x, w .failureSustainMillis = some x → Key.failureSustainMillis.Fits x) :
    t.read "failure_sustain_ms" Value.optionalSigned none = .ok (w .failureSustainMillis) := by
  rw [read, hfind]
  cases hw : w .failureSustainMillis with
  | none => rfl
  | some x => exact Value.optionalSigned_signed _ (hfits x hw)

theorem settings_of_find? (hfind : ∀ k : Key, t.find? k.name = (w k).map k.value)
    (hfits : ∀ (k : Key) (x : k.Content), w k = some x → k.Fits x) :
    t.settings = .ok w.settings := by
  have hsample := read_of_find? (hfind .sampleSize) fun x hx =>
    Value.natural_unsigned "usize" _ (hfits .sampleSize x hx) (Nat.le_refl _)
  have hsustain := read_failureSustainMillis (hfind .failureSustainMillis)
    (hfits .failureSustainMillis)
  have hweight := read_of_find? (hfind .failureWeight) fun x hx =>
    Value.natural_unsigned "u32" _ (hfits .failureWeight x hx) (by decide)
  have hgroup := read_of_find? (hfind .groupSize) fun x hx =>
    Value.natural_unsigned "usize" _ (hfits .groupSize x hx) (Nat.le_refl _)
  have hlook := read_of_find? (hfind .lookBackMillis) fun x hx =>
    Value.natural_unsigned "u64" _ (hfits .lookBackMillis x hx) (Nat.le_refl _)
  have hstem := read_of_find? (hfind .stem) fun s _ => Value.string_text _ s
  have hwindows := read_of_find? (hfind .windows) fun x hx =>
    Value.natural_unsigned "usize" _ (hfits .windows x hx) (Nat.le_refl _)
  have hrate := read_of_find? (hfind .rateWindowMillis) fun x hx =>
    Value.natural_unsigned "u64" _ (hfits .rateWindowMillis x hx) (Nat.le_refl _)
  have hstrategy := read_of_find? (hfind .subStrategy) fun s _ => Value.strategy_text _ s
  simp only [Key.name] at hsample hweight hgroup hlook hstem hwindows hrate hstrategy
  simp only [settings, hsample, hsustain, hweight, hgroup, hlook, hstem, hwindows, hrate, hstrategy,
    bind, Except.bind, pure, Except.pure]
  rfl

end Table

inductive Call where
  | groupSize (n : Nat)
  | subStrategy (s : SubStrategy)
  | lookBack (d : Duration)
  | windows (n : Nat)
  | failureSustain (d : Duration)
  | failureSustainMillis (ms : Int)
  | failureWeight (n : Nat)
  | rateWindow (d : Duration)
  | sampleSize (n : Nat)
  | stem (s : String)
  | arguments (a : Arguments)

namespace Call

def source : Call → Source
  | groupSize n => .override (.groupSize n)
  | subStrategy s => .override (.subStrategy s)
  | lookBack d => .override (.lookBack d)
  | windows n => .override (.windows n)
  | failureSustain d => .override (.failureSustain d)
  | failureSustainMillis ms => .override (.failureSustainMillis ms)
  | failureWeight n => .override (.failureWeight n)
  | rateWindow d => .override (.rateWindow d)
  | sampleSize n => .override (.sampleSize n)
  | stem s => .override (.stem s)
  | arguments a => .arguments a

/-- What a call writes: durations in whole milliseconds, as many as fit. -/
def writes : Call → Written
  | groupSize n, .groupSize => some n
  | subStrategy s, .subStrategy => some s
  | lookBack d, .lookBackMillis => some (min (d.nanos / 1_000_000) (UInt64.size - 1))
  | windows n, .windows => some n
  | failureSustain d, .failureSustainMillis => some (min (d.nanos / 1_000_000 : Nat) signedMax64)
  | failureSustainMillis ms, .failureSustainMillis => some ms
  | failureWeight n, .failureWeight => some n
  | rateWindow d, .rateWindowMillis => some (min (d.nanos / 1_000_000) (UInt64.size - 1))
  | sampleSize n, .sampleSize => some n
  | stem s, .stem => some s
  | arguments a, .groupSize => a.groupSize
  | arguments a, .subStrategy => a.subStrategy
  | arguments a, .lookBackMillis => a.lookBackMillis
  | arguments a, .windows => a.windows
  | arguments a, .failureSustainMillis => a.failureSustainMillis
  | arguments a, .failureWeight => a.failureWeight
  | arguments a, .rateWindowMillis => a.rateWindowMillis
  | arguments a, .stem => a.stem
  | _, _ => none

def Fits (c : Call) : Prop := ∀ (k : Key) (x : k.Content), c.writes k = some x → k.Fits x

end Call

end LeastLoad.Config
