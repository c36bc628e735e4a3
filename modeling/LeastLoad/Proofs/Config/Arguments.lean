import LeastLoad.Proofs.Config.Written

/-! # What a command line gives is in range

Each flag reads its value into the range of its setting, so that whatever a command line gives
fits, and a later flag leaves the settings of the earlier ones alone. -/

namespace LeastLoad.Config.Arguments

theorem exists_of_map_eq_ok {ε α β : Type} {x : Except ε α} {g : α → β} {b : β}
    (h : x.map g = .ok b) : ∃ a, x = .ok a ∧ g a = b := by
  cases x with
  | error e => cases h
  | ok a => exact ⟨a, rfl, Except.ok.inj h⟩

theorem exists_of_bind_eq_ok {ε α β : Type} {x : Except ε α} {g : α → Except ε β} {b : β}
    (h : (x >>= g) = .ok b) : ∃ a, x = .ok a ∧ g a = .ok b := by
  cases x with
  | error e => cases h
  | ok a => exact ⟨a, rfl, h⟩

theorem Flag.natural_lt {s : String} {n : Nat} (h : natural s = .ok n) : n < UInt64.size := by
  rw [natural] at h
  split at h
  · split at h
    · cases h
      assumption
    · cases h
  · cases h

theorem Flag.integer_mem {low high n : Int} {s : String} (h : integer low high s = .ok n) :
    low ≤ n ∧ n ≤ high := by
  rw [integer] at h
  split at h
  · split at h
    · cases h
      assumption
    · cases h
  · cases h

theorem Flag.fits_read {f : Flag} {s : String} {a a' : Arguments} (h : f.read s a = .ok a')
    (ha : (Call.arguments a).Fits) : (Call.arguments a').Fits := by
  cases f with
  | stem =>
    cases h
    intro k x hx
    cases k <;> first | exact trivial | exact ha _ x hx
  | subStrategy =>
    obtain ⟨n, -, rfl⟩ := exists_of_map_eq_ok h
    intro k x hx
    cases k <;> first | exact trivial | exact ha _ x hx
  | failureSustainMillis =>
    obtain ⟨n, hn, rfl⟩ := exists_of_map_eq_ok h
    intro k x hx
    cases k with
    | failureSustainMillis =>
      cases hx
      exact integer_mem hn
    | _ => exact ha _ x hx
  | failureWeight =>
    obtain ⟨n, hn, rfl⟩ := exists_of_map_eq_ok h
    have hfits := integer_mem hn
    intro k x hx
    cases k with
    | failureWeight =>
      cases hx
      change n.toNat < UInt32.size
      omega
    | _ => exact ha _ x hx
  | _ =>
    obtain ⟨n, hn, rfl⟩ := exists_of_map_eq_ok h
    intro k x hx
    cases k <;> first | exact ha _ x hx | (cases hx; exact natural_lt hn)

theorem Progress.fits_accept {p p' : Progress} {f : Flag} {value : Option String}
    (h : p.accept f value = .ok p') (hp : (Call.arguments p.given).Fits) :
    (Call.arguments p'.given).Fits := by
  rw [accept.eq_def] at h
  split at h
  · cases h
  · split at h
    · cases h
    · obtain ⟨given, hread, rfl⟩ := exists_of_map_eq_ok h
      exact Flag.fits_read hread hp

theorem Progress.fits_settle {p p' : Progress} (h : p.settle = .ok p')
    (hp : (Call.arguments p.given).Fits) : (Call.arguments p'.given).Fits := by
  rw [settle] at h
  split at h
  · cases h
    exact hp
  · exact fits_accept h hp

theorem Progress.fits_readFlag {p p' : Progress} {arg : String} (h : p.readFlag arg = .ok p')
    (hp : (Call.arguments p.given).Fits) : (Call.arguments p'.given).Fits := by
  rw [readFlag] at h
  dsimp only at h
  split at h
  · obtain ⟨settled, hs, h⟩ := exists_of_bind_eq_ok h
    exact fits_accept h (fits_settle hs hp)
  · obtain ⟨settled, hs, h⟩ := exists_of_bind_eq_ok h
    cases h
    have hgiven := fits_settle hs hp
    exact hgiven
  · split at h
    · obtain ⟨settled, -, h⟩ := exists_of_bind_eq_ok h
      cases h
    · cases h

theorem Progress.fits_readArgument {p p' : Progress} {arg : String}
    (h : p.readArgument arg = .ok p') (hp : (Call.arguments p.given).Fits) :
    (Call.arguments p'.given).Fits := by
  rw [readArgument] at h
  split at h
  · split at h
    · cases h
      exact hp
    · exact fits_readFlag h hp
  · exact fits_readFlag h hp

theorem fits_readFrom {args : List String} {p : Progress} {a : Arguments}
    (h : readFrom p args = .ok a) (hp : (Call.arguments p.given).Fits) :
    (Call.arguments a).Fits := by
  induction args generalizing p with
  | nil =>
    obtain ⟨p', hp', rfl⟩ := exists_of_map_eq_ok h
    exact Progress.fits_settle hp' hp
  | cons arg args ih =>
    rw [readFrom] at h
    split at h
    · split at h
      · obtain ⟨p', hp', rfl⟩ := exists_of_map_eq_ok h
        exact Progress.fits_settle hp' hp
      · cases h
    · obtain ⟨p', hp', h⟩ := exists_of_bind_eq_ok h
      exact ih h (Progress.fits_readArgument hp' hp)

theorem fits_read {args : List String} {a : Arguments} (h : read args = .ok a) :
    (Call.arguments a).Fits :=
  fits_readFrom h fun k x hx => by cases k <;> cases hx

end LeastLoad.Config.Arguments
