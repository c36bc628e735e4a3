/-! # Random words and uniform draws

A source yields 64-bit words. `uniform n` turns them into a number below `n`: a word `w` stands
for the high half of the product `w * n`, and words whose low half lies beyond `zone n` are thrown
away, so that every number is the high half of equally many accepted words. -/

namespace LeastLoad

class WordSource (σ : Type) where
  next : σ → UInt64 × σ

/-- An endless sequence of words, of which `drawn` have been used. -/
structure Words where
  word : Nat → UInt64
  drawn : Nat := 0

namespace Words

/-- The words of a list over and over again; zeros if there are none. -/
def cycling (words : List UInt64) : Words :=
  let table := words.toArray
  { word := fun i => table.getD (i % table.size) 0 }

instance : WordSource Words where
  next s := (s.word s.drawn, { s with drawn := s.drawn + 1 })

end Words

namespace Random

/-- The largest low half that is accepted: the multiple of `n` by a power of two that just fits
64 bits, less one. -/
def zone (n : Nat) : Nat := (n <<< (63 - n.log2)) - 1

/-- Draws a number below `n`, throwing away at most `tries` words. -/
def uniformWithin {σ : Type} [WordSource σ] (n : Nat) : Nat → σ → Nat × σ
  | 0, s =>
    let (w, s) := WordSource.next s
    (w.toNat * n / UInt64.size, s)
  | tries + 1, s =>
    let (w, s) := WordSource.next s
    let product := w.toNat * n
    if product % UInt64.size ≤ zone n then (product / UInt64.size, s) else uniformWithin n tries s

/-- How many words a draw may throw away. Each is thrown away with a chance below one half. -/
def patience : Nat := 65536

/-- Draws a number below `n`. At least one word is used, even when `n` is one. -/
def uniform {σ : Type} [WordSource σ] (n : Nat) (s : σ) : Nat × σ := uniformWithin n patience s

theorem high_lt {n : Nat} (hn : 0 < n) (w : UInt64) : w.toNat * n / UInt64.size < n :=
  Nat.div_lt_of_lt_mul (Nat.mul_lt_mul_of_pos_right w.toNat_lt hn)

theorem uniformWithin_lt {σ : Type} [WordSource σ] {n : Nat} (hn : 0 < n) (tries : Nat) (s : σ) :
    (uniformWithin n tries s).1 < n := by
  induction tries generalizing s with
  | zero => exact high_lt hn _
  | succ tries ih =>
    rw [uniformWithin]
    dsimp only
    split
    · exact high_lt hn _
    · exact ih _

theorem uniform_lt {σ : Type} [WordSource σ] {n : Nat} (hn : 0 < n) (s : σ) :
    (uniform n s).1 < n :=
  uniformWithin_lt hn _ s

end Random

end LeastLoad
