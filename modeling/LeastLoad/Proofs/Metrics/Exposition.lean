import LeastLoad.Metrics.Exposition
import Mathlib.Data.List.Induction

/-! # Names that cannot collide

A name joins a stem, made fit for a name, to the ending of its series. No ending ends in another
one, so a name tells its stem and its series: two stems share all seven names or none. A registry
that refuses the names it holds therefore refuses an owner at the first series or not at all, and
lists all series of an owner or none. -/

namespace LeastLoad

theorem Series.mem_all (s : Series) : s ∈ Series.all := by
  cases s <;> decide

theorem Series.nodup_all : Series.all.Nodup := by
  decide

theorem Series.eq_of_ending_suffix {s t : Series} (h : s.ending.toList <:+ t.ending.toList) :
    s = t := by
  revert h
  cases s <;> cases t <;> decide

theorem Series.ending_cases (s : Series) :
    ∃ cs, s.ending.toList = '_' :: cs ∧ ∀ c ∈ cs, SeriesName.follows c := by
  cases s <;> exact ⟨_, rfl, List.all_eq_true.1 rfl⟩

namespace SeriesName

theorem opens_sanitized (c : Char) : opens (if opens c then c else '_') := by
  split
  · assumption
  · rfl

theorem follows_sanitized (c : Char) : follows (if follows c then c else '_') := by
  split
  · assumption
  · rfl

/-- Any text is made fit for what names start with, the empty one because endings open names. -/
theorem valid_sanitize_append_ending (cs : List Char) (s : Series) :
    Valid (sanitize cs ++ s.ending.toList) := by
  obtain ⟨es, hes, hfollows⟩ := s.ending_cases
  rw [hes]
  cases cs with
  | nil => exact ⟨'_', es, rfl, rfl, hfollows⟩
  | cons c cs =>
    refine ⟨_, _, rfl, opens_sanitized c, fun d hd => ?_⟩
    obtain hd | hd := List.mem_append.1 hd
    · obtain ⟨d, -, rfl⟩ := List.mem_map.1 hd
      exact follows_sanitized d
    · obtain rfl | hd := List.mem_cons.1 hd
      · rfl
      · exact hfollows d hd

end SeriesName

namespace Exposition

variable {e e' : Exposition} {s t : Series}

theorem toList_name (e : Exposition) (s : Series) :
    (e.name s).toList = e.stem.toList ++ s.ending.toList :=
  String.toList_append

theorem name_inj : e.name s = e'.name t ↔ e.stem = e'.stem ∧ s = t := by
  refine ⟨fun h => ?_, fun ⟨hstem, hs⟩ => by rw [name, name, hstem, hs]⟩
  have hlist : e.stem.toList ++ s.ending.toList = e'.stem.toList ++ t.ending.toList := by
    rw [← toList_name, ← toList_name, h]
  have hs : s = t := by
    obtain ⟨m, -, hm⟩ | ⟨m, -, hm⟩ := List.append_eq_append_iff.1 hlist
    · exact (Series.eq_of_ending_suffix ⟨m, hm.symm⟩).symm
    · exact Series.eq_of_ending_suffix ⟨m, hm.symm⟩
  subst hs
  exact ⟨String.toList_inj.1 (List.append_cancel_right hlist), rfl⟩

theorem stem_named_inj {a b : String} : (named a).stem = (named b).stem ↔
    SeriesName.sanitize a.toList = SeriesName.sanitize b.toList :=
  String.ofList_inj

theorem valid_name_named (stem : String) (s : Series) :
    SeriesName.Valid ((named stem).name s).toList := by
  rw [toList_name, named, String.toList_ofList]
  exact SeriesName.valid_sanitize_append_ending _ s

def listings (owner : Nat) (e : Exposition) : List Listing :=
  Series.all.map fun s => ⟨e.name s, owner, s⟩

end Exposition

namespace Registry

variable {r : Registry} {owner : Nat} {e e' : Exposition} {s t : Series}

theorem holds_append (ls ls' : List Listing) (name : String) :
    holds ⟨ls ++ ls'⟩ name = (holds ⟨ls⟩ name || holds ⟨ls'⟩ name) :=
  List.any_append

theorem holds_eq_true {name : String} : r.holds name ↔ name ∈ r.listings.map (·.name) := by
  simp [holds]

theorem list_of_free {series : List Series} (hd : series.Nodup)
    (hfree : ∀ s ∈ series, r.holds (e.name s) = false) :
    r.list owner e series = (true, ⟨r.listings ++ series.map fun s => ⟨e.name s, owner, s⟩⟩) := by
  induction series generalizing r with
  | nil => rw [list, List.map_nil, List.append_nil]
  | cons s series ih =>
    obtain ⟨hs, hd⟩ := List.nodup_cons.1 hd
    rw [list, hfree s List.mem_cons_self, if_neg Bool.false_ne_true, ih hd fun t ht => ?_,
      List.append_assoc, List.singleton_append, List.map_cons]
    have hne : e.name s ≠ e.name t := fun h => hs ((Exposition.name_inj.1 h).2 ▸ ht)
    rw [holds_append, hfree t (List.mem_cons_of_mem _ ht)]
    simp [holds, hne]

/-- All names of a stem are held, or none. -/
def Whole (r : Registry) : Prop :=
  ∀ (e : Exposition) (s t : Series), r.holds (e.name s) = r.holds (e.name t)

theorem register_of_held (h : r.Whole) (hheld : r.holds (e.name s)) :
    r.register owner e = (false, r) := by
  rw [register, Series.all, list, if_pos (h e s .inflight ▸ hheld)]

theorem register_of_free (h : r.Whole) (hfree : r.holds (e.name s) = false) :
    r.register owner e = (true, ⟨r.listings ++ e.listings owner⟩) :=
  list_of_free Series.nodup_all fun t _ => h e s t ▸ hfree

theorem holds_listings : holds ⟨e.listings owner⟩ (e'.name s) ↔ e.stem = e'.stem := by
  rw [holds_eq_true, Exposition.listings, List.map_map, List.mem_map]
  constructor
  · rintro ⟨t, -, ht⟩
    exact (Exposition.name_inj.1 ht).1
  · exact fun h => ⟨s, s.mem_all, Exposition.name_inj.2 ⟨h, rfl⟩⟩

theorem register_cases (h : r.Whole) (owner : Nat) (e : Exposition) :
    (∀ s, r.holds (e.name s)) ∧ r.register owner e = (false, r) ∨
    (∀ s, r.holds (e.name s) = false) ∧
      r.register owner e = (true, ⟨r.listings ++ e.listings owner⟩) := by
  cases hheld : r.holds (e.name .inflight) with
  | true => exact .inl ⟨fun s => h e s .inflight ▸ hheld, register_of_held h hheld⟩
  | false => exact .inr ⟨fun s => h e s .inflight ▸ hheld, register_of_free h hheld⟩

theorem Whole.register (h : r.Whole) (owner : Nat) (e : Exposition) :
    (r.register owner e).2.Whole := by
  obtain ⟨-, heq⟩ | ⟨-, heq⟩ := register_cases h owner e <;> rw [heq]
  · exact h
  · intro e' s t
    have hnew : holds ⟨e.listings owner⟩ (e'.name s) = holds ⟨e.listings owner⟩ (e'.name t) :=
      Bool.eq_iff_iff.2 (holds_listings.trans holds_listings.symm)
    rw [holds_append, holds_append, h e' s t, hnew]

end Registry

/-- A balancer that wants its series listed. They were made with the stem `asked` and may have
counted since. -/
structure Applicant where
  owner : Nat
  asked : String
  series : Exposition
  made : series.stem = (Exposition.named asked).stem

namespace Applicant

def new (owner : Nat) (asked : String) : Applicant := ⟨owner, asked, .named asked, rfl⟩

theorem valid_name (c : Applicant) (s : Series) : SeriesName.Valid (c.series.name s).toList := by
  rw [Exposition.name, c.made]
  exact Exposition.valid_name_named c.asked s

theorem stem_inj {c c' : Applicant} : c.series.stem = c'.series.stem ↔
    SeriesName.sanitize c.asked.toList = SeriesName.sanitize c'.asked.toList := by
  rw [c.made, c'.made, Exposition.stem_named_inj]

def apply (c : Applicant) (r : Registry) : Bool × Registry := r.register c.owner c.series

end Applicant

namespace Registry

def after (calls : List Applicant) : Registry := calls.foldl (fun r c => (c.apply r).2) {}

theorem after_concat (calls : List Applicant) (c : Applicant) :
    after (calls ++ [c]) = (c.apply (after calls)).2 :=
  List.foldl_append

theorem whole_after (calls : List Applicant) : (after calls).Whole := by
  induction calls using List.reverseRecOn with
  | nil => exact fun _ _ _ => rfl
  | append_singleton calls c ih => exact after_concat calls c ▸ ih.register c.owner c.series

theorem holds_after {calls : List Applicant} {e : Exposition} {s : Series} :
    (after calls).holds (e.name s) ↔ ∃ past c, past ++ [c] <+: calls ∧
      (c.apply (after past)).1 = true ∧ c.series.stem = e.stem := by
  induction calls using List.reverseRecOn with
  | nil =>
    refine ⟨nofun, ?_⟩
    rintro ⟨past, c, hpre, -⟩
    exact absurd (List.prefix_nil.1 hpre) (List.concat_ne_nil c past)
  | append_singleton calls c ih =>
    have hsplit : (∃ past c', past ++ [c'] <+: calls ++ [c] ∧
        (c'.apply (after past)).1 = true ∧ c'.series.stem = e.stem) ↔
        ((c.apply (after calls)).1 = true ∧ c.series.stem = e.stem) ∨
        (after calls).holds (e.name s) := by
      rw [ih]
      constructor
      · rintro ⟨past, c', hpre, h⟩
        obtain heq | hpre := List.prefix_concat_iff.1 hpre
        · obtain ⟨rfl, rfl⟩ := List.append_singleton_inj.1 heq
          exact .inl h
        · exact .inr ⟨past, c', hpre, h⟩
      · rintro (h | ⟨past, c', hpre, h⟩)
        · exact ⟨calls, c, List.prefix_rfl, h⟩
        · exact ⟨past, c', hpre.trans (List.prefix_append ..), h⟩
    rw [hsplit, after_concat]
    obtain ⟨-, heq⟩ | ⟨-, heq⟩ := register_cases (whole_after calls) c.owner c.series
    · simp [Applicant.apply, heq]
    · rw [Applicant.apply, heq, holds_append, Bool.or_eq_true, holds_listings]
      exact ⟨fun h => h.symm.imp_left fun h => ⟨rfl, h⟩, fun h => (h.imp_left And.right).symm⟩

/-- Whoever applies is listed with all seven series or with none, and with none exactly if one of
the same stem, as it is made fit for a name, has been listed before. -/
theorem register_all_or_none (calls : List Applicant) (c : Applicant) :
    (∀ s, SeriesName.Valid (c.series.name s).toList) ∧
    ((c.apply (after calls)).1 = false ↔ ∃ past c', past ++ [c'] <+: calls ∧
      (c'.apply (after past)).1 = true ∧
      SeriesName.sanitize c'.asked.toList = SeriesName.sanitize c.asked.toList) ∧
    ((c.apply (after calls)).1 = false → after (calls ++ [c]) = after calls) ∧
    ((c.apply (after calls)).1 = true →
      (∀ s, (after calls).holds (c.series.name s) = false) ∧
      (after (calls ++ [c])).listings = (after calls).listings ++
        Series.all.map fun s => ⟨c.series.name s, c.owner, s⟩) := by
  have hlisted : (after calls).holds (c.series.name .inflight) ↔ _ := holds_after
  simp only [Applicant.stem_inj] at hlisted
  rw [← hlisted, after_concat, Applicant.apply]
  obtain ⟨hheld, heq⟩ | ⟨hfree, heq⟩ := register_cases (whole_after calls) c.owner c.series
  · exact ⟨c.valid_name, by simp [heq, hheld], fun _ => by rw [heq], fun h => by simp [heq] at h⟩
  · refine ⟨c.valid_name, by simp [heq, hfree], fun h => by simp [heq] at h, fun _ => ?_⟩
    rw [heq]
    exact ⟨hfree, rfl⟩

/-- Two stems that come out the same as names, of which the second is refused, and no stem at
all. -/
theorem register_all_or_none_of_three :
    ∃ a b c : Applicant, a.asked = "db.main" ∧ b.asked = "db main" ∧ c.asked = "" ∧
      (a.apply (after [])).1 = true ∧ (b.apply (after [a])).1 = false ∧
      after [a, b] = after [a] ∧ (c.apply (after [a, b])).1 = true ∧
      (after [a, b, c]).listings.length = 14 := by
  obtain ⟨-, hfirst, -, hone⟩ := register_all_or_none [] (.new 0 "db.main")
  obtain ⟨-, hsecond, hstays, -⟩ := register_all_or_none [.new 0 "db.main"] (.new 1 "db main")
  obtain ⟨-, hthird, -, htwo⟩ :=
    register_all_or_none [.new 0 "db.main", .new 1 "db main"] (.new 2 "")
  have hlisted : ((Applicant.new 0 "db.main").apply (after [])).1 = true := by
    rw [← Bool.not_eq_false, hfirst]
    rintro ⟨past, x, hpre, -⟩
    exact absurd (List.prefix_nil.1 hpre) (List.concat_ne_nil x past)
  have hrefused : ((Applicant.new 1 "db main").apply (after [.new 0 "db.main"])).1 = false :=
    hsecond.2 ⟨[], _, List.prefix_rfl, hlisted, by decide⟩
  have hempty : ((Applicant.new 2 "").apply
      (after [.new 0 "db.main", .new 1 "db main"])).1 = true := by
    rw [← Bool.not_eq_false, hthird]
    rintro ⟨past, x, hpre, -, hsame⟩
    have hx := hpre.subset (List.mem_append_right _ List.mem_cons_self)
    obtain rfl | rfl : x = .new 0 "db.main" ∨ x = .new 1 "db main" := by simpa using hx
    all_goals exact absurd hsame (by decide)
  have hsame : after [.new 0 "db.main", .new 1 "db main"] = after [.new 0 "db.main"] :=
    hstays hrefused
  have hseven : (after [.new 0 "db.main"]).listings.length = 7 :=
    congrArg List.length (hone hlisted).2
  refine ⟨_, _, _, rfl, rfl, rfl, hlisted, hrefused, hsame, hempty, ?_⟩
  refine (congrArg List.length (htwo hempty).2).trans ?_
  rw [List.length_append, hsame, hseven]
  rfl

end Registry

end LeastLoad
