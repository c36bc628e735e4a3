import LeastLoad.Proofs.Fleet.Deeds

/-! # What a grouped balancer hands out

A grouped balancer keeps its endpoints in the groups laid out over the list that it was last given.
The words draw a group and a place in it; from there on, cyclically, the first of the least loaded
available states of the group is handed out, each counted with all that is due to it. -/

namespace LeastLoad

namespace Grouping

variable {now start : Nat} {t t' : LoadTable} {group : List LoadRef} {choice : Option LoadRef}
  {maxGroup : Nat} {es : List Endpoint} {g : Grouping}

theorem Picks.eq_none_iff (h : Picks now t group start choice t') :
    choice = none ↔ ∀ r ∈ group, ((t.load r).sync now).available = false := by
  have hmem : ∀ r, r ∈ group.rotateLeft start ↔ r ∈ group :=
    fun r => (perm_rotateLeft group start).mem_iff
  have hfirst := h.first
  cases choice with
  | none => exact ⟨fun _ r hr => hfirst r ((hmem r).2 hr), fun _ => rfl⟩
  | some r =>
    refine ⟨nofun, fun hall => ?_⟩
    have hno := hall r ((hmem r).1 hfirst.mem)
    obtain ⟨_, _, _, hav, _⟩ := hfirst
    rw [hav] at hno
    cases hno

theorem Picks.inFlight_eq (h : Picks now t group start choice t') {r : LoadRef}
    (hr : choice = some r) :
    (t'.load r).inFlight.toNat = ((t.load r).sync now).inFlight.toNat + 1 := by
  subst hr
  obtain ⟨-, -, -, hav, -⟩ := h.first
  have hlt : ((t.load r).sync now).inFlight.toNat < 2 ^ 31 := (EndpointLoad.available_iff.1 hav).2
  rw [h.loads, if_pos rfl]
  change (((t.load r).sync now).inFlight + 1).toNat = _
  rw [UInt32.toNat_add, UInt32.toNat_one]
  exact Nat.mod_eq_of_lt (by omega)

/-- A grouping over states of the given endpoints, one for each of them. -/
def LaidOut (t : LoadTable) (es : List Endpoint) (g : Grouping) : Prop :=
  ∃ states, g = .layout g.maxGroup states ∧ t.Apart states ∧ states.map t.endpoint = es

theorem LaidOut.of_endpoint (h : g.LaidOut t es) (hsize : t.states.size ≤ t'.states.size)
    (hend : ∀ r : LoadRef, r.place < t.states.size → t'.endpoint r = t.endpoint r) :
    g.LaidOut t' es := by
  obtain ⟨states, hg, hapart, hes⟩ := h
  refine ⟨states, hg,
    ⟨fun r hr => (hapart.place r hr).trans_le hsize, fun r hr r' hr' he => ?_⟩, ?_⟩
  · rw [hend r' (hapart.place r' hr'), hend r (hapart.place r hr)] at he
    exact hapart.one r hr r' hr' he
  · rw [← hes]
    exact List.map_congr_left fun r hr => hend r (hapart.place r hr)

theorem LaidOut.exists_items (h : g.LaidOut t es) :
    ∃ states : List LoadRef, states.map t.endpoint = es ∧
      g.groups.items = (partition states.length g.maxGroup).map (·.slice states) := by
  obtain ⟨states, hg, -, hes⟩ := h
  refine ⟨states, hes, ?_⟩
  rw [hg]
  exact items_layout _ _

theorem LaidOut.sizes_eq (h : g.LaidOut t es) :
    g.sizes = (partition es.length g.maxGroup).map Span.size := by
  obtain ⟨states, rfl, hitems⟩ := h.exists_items
  rw [sizes, hitems, List.map_map, List.length_map]
  exact List.map_congr_left fun s hs => length_slice hs

theorem LaidOut.map_endpoint_members (h : g.LaidOut t es) (hsize : 0 < g.maxGroup) :
    g.members.map t.endpoint = es := by
  obtain ⟨states, rfl, hitems⟩ := h.exists_items
  rw [members, hitems, flatten_slices_partition states hsize]

end Grouping

namespace Fleet

open Grouping (LaidOut Picks)

variable {f f' start : Fleet} {b : Nat} {c : LoadSettings} {past : List (Fleet × Deed)}
  {g : Grouping} {es : List Endpoint} {states : List LoadRef}

def given (b : Nat) : List (Fleet × Deed) → List Endpoint
  | [] => []
  | (f, d) :: past => (f.assigned b d).getD (given b past)

theorem given_of_assigned {d : Deed} (h : f.assigned b d = none) :
    given b ((f, d) :: past) = given b past := by
  rw [given, h]
  rfl

def LaidOutOver (known : Nat → List Endpoint) (f : Fleet) : Prop :=
  ∀ b g, f.selection? b = some (.grouped g) → g.LaidOut f.loads (known b)

variable {known : Nat → List Endpoint}

theorem LaidOutOver.shifts (h : f.LaidOutOver known) (hs : Shifts f f') :
    f'.LaidOutOver known :=
  fun b g hg => (h b g (hs.grouped_iff.1 hg)).of_endpoint hs.loads.size.ge
    fun r _ => hs.loads.endpoint r

theorem LaidOutOver.resolves (h : f.LaidOutOver known) (hr : Resolves c es states f f') :
    f'.LaidOutOver known := by
  intro b g hg
  rw [hr.rest] at hg
  exact (h b g hg).of_endpoint hr.grows.size fun r hlt =>
    congrArg EndpointLoad.endpoint (hr.grows.loads r hlt)

theorem Installs.laidOutOver (hi : Installs b states f f') (known : Nat → List Endpoint)
    {d : Directory}
    (hres : d.Resolved f.loads es states)
    (h : ∀ b' g, b ≠ b' → f.selection? b' = some (.grouped g) → g.LaidOut f.loads (known b')) :
    f'.LaidOutOver fun b' => if b = b' then es else known b' := by
  intro b' g hg
  have hloads : f'.loads = f.loads := by rw [hi.rest]
  rw [hloads]
  rw [hi.selection?] at hg
  dsimp only
  split at hg
  · next hb =>
    obtain ⟨x, -, hrefilled⟩ := Option.map_eq_some_iff.1 hg
    rw [if_pos hb]
    cases x with
    | ranked k => cases hrefilled
    | grouped g' =>
      obtain rfl := Selection.grouped.inj hrefilled
      exact ⟨states, rfl, hres.apart, hres.map_endpoint⟩
  · next hb =>
    rw [if_neg hb]
    exact h b' g hb hg

theorem LaidOutOver.congr {known' : Nat → List Endpoint} (h : f.LaidOutOver known)
    (hsel : ∀ b, f'.selection? b = f.selection? b) (hl : f'.loads = f.loads)
    (hknown : ∀ b, known' b = known b) : f'.LaidOutOver known' := by
  intro b g hg
  rw [hl, hknown]
  exact h b g ((hsel b).symm.trans hg)

theorem Rooted.laidOutOver_perform (h : f.Rooted c)
    (hf : f.LaidOutOver fun b => given b past) {d : Deed} (hd : Allowed f d) :
    (f.perform d).LaidOutOver fun b => given b ((f, d) :: past) := by
  have heffect := h.effect hd
  generalize f.perform d = f' at heffect
  cases heffect with
  | shifts hn hs => exact (hf.shifts hs).congr (fun _ => rfl) rfl fun b => given_of_assigned (hn b)
  | @keeps b t hb ht =>
    exact (hf.shifts (h.coherent.shifts_next b).1).congr (fun _ => rfl) rfl fun _ => rfl
  | resolves hres => exact (hf.resolves hres).congr (fun _ => rfl) rfl fun _ => rfl
  | holds hres => exact (hf.resolves hres).congr (fun _ => rfl) rfl fun _ => rfl
  | @builds s strategy listeners es b _ hok =>
    obtain ⟨telemetry, states, f₁, -, hres, rfl, rfl⟩ := h.build_cases hok
    obtain ⟨d, hd, hstates⟩ := hres.resolved
    have hinst := (installs (f₁.seat (some ⟨strategy.selection s, telemetry, listeners⟩)).2
      f.seats.size states).laidOutOver (fun b => given b past) hstates
      fun b' g hne hg => by
        rw [selection?_seat, if_neg (by rw [hres.rest]; exact Ne.symm hne)] at hg
        exact hf.resolves hres b' g hg
    refine hinst.congr (selection?_publish _ _) (loads_publish _ _) fun b' => ?_
    simp only [given, assigned, hok]
    split <;> rfl
  | @updates b es _ hok =>
    obtain ⟨states, f₁, hres, rfl⟩ := h.update_cases hok
    obtain ⟨d, hd, hstates⟩ := hres.resolved
    have hinst := (f₁.installs b states).laidOutOver (fun b => given b past) hstates
      fun b' g _ hg => hf.resolves hres b' g hg
    refine hinst.congr (selection?_prune _) (loads_prune _) fun b' => ?_
    simp only [given, assigned, hok]
    split <;> rfl
  | drops hn hdrop =>
    exact hf.congr hdrop.selections hdrop.loads fun b => given_of_assigned (hn b)
  | prunes => exact hf.congr (selection?_prune _) (loads_prune _) fun _ => rfl

theorem Runs.laidOutOver (hstart : start.Blank c) (h : Runs Allowed start past f) :
    f.LaidOutOver fun b => given b past := by
  induction h with
  | start =>
    intro b g hg
    rw [hstart.selection?] at hg
    cases hg
  | step d hrun hd ih => exact (hrun.rooted hstart).laidOutOver_perform ih hd

theorem next_of_grouped (h : f.selection? b = some (.grouped g)) :
    (f.next b).1.map (·.load) = (g.take f.now f.loads f.words).1 ∧
      (f.next b).2.loads = (g.take f.now f.loads f.words).2.1 := by
  obtain ⟨x, hx, hsel⟩ := Option.map_eq_some_iff.1 h
  simp only [next, hx, Balancer.take, hsel]
  cases g.take f.now f.loads f.words with
  | mk choice rest => cases choice <;> exact ⟨rfl, rfl⟩

/-- A grouped balancer over no endpoints hands out nothing. Over others, it draws one of the groups
of the partition and a place in it, and takes the first of the least loaded states from there. -/
theorem Runs.next_first_least (hstart : start.Blank c) (h : Runs Allowed start past f)
    (hg : f.selection? b = some (.grouped g)) (hsize : 0 < g.maxGroup) :
    ∃ states : List LoadRef, states.map f.loads.endpoint = given b past ∧
      g.groups.items = (partition states.length g.maxGroup).map (·.slice states) ∧
      (states = [] ∧ (f.next b).1 = none ∧ (f.next b).2.loads = f.loads ∨
        ∃ group ∈ g.groups.items, ∃ place, g.draw f.words = some (group, place) ∧
          Picks f.now f.loads group place ((f.next b).1.map (·.load)) (f.next b).2.loads ∧
          ((f.next b).1 = none ↔
            ∀ r ∈ group, ((f.loads.load r).sync f.now).available = false) ∧
          ∀ t, (f.next b).1 = some t → ((f.next b).2.loads.load t.load).inFlight.toNat =
            ((f.loads.load t.load).sync f.now).inFlight.toNat + 1) := by
  obtain ⟨states, hlayout, hapart, hes⟩ := h.laidOutOver hstart b g hg
  have hrooted := h.rooted hstart
  obtain ⟨hanswer, hloads⟩ := next_of_grouped hg
  have hitems : g.groups.items = (partition states.length g.maxGroup).map (·.slice states) := by
    rw [hlayout]
    exact Grouping.items_layout _ _
  refine ⟨states, hes, hitems, ?_⟩
  by_cases hne : states = []
  · left
    have hdraw : g.draw f.words = none := by
      rw [hlayout, hne]
      exact Grouping.draw_layout_nil _ _
    obtain ⟨htake, hstill⟩ := Grouping.take_of_draw_none f.now f.loads hdraw
    rw [htake, Option.map_eq_none_iff] at hanswer
    exact ⟨hne, hanswer, hloads.trans hstill⟩
  · right
    obtain ⟨s, hs, place, hdraw⟩ := Grouping.exists_draw_layout hsize hne f.words
    rw [← hlayout] at hdraw
    have hgroup : s.slice states ∈ g.groups.items := hitems ▸ List.mem_map_of_mem hs
    have hpicks := Grouping.take_of_draw (t := f.loads) f.now hdraw (slice_ne_nil hs)
      fun r hr => by
        have hplace := hapart.place r (mem_of_mem_slice hr)
        exact ⟨hplace, hrooted.kinds r hplace⟩
    rw [← hanswer, ← hloads] at hpicks
    refine ⟨s.slice states, hgroup, place, hdraw, hpicks, ?_, fun t ht => ?_⟩
    · rw [← hpicks.eq_none_iff, Option.map_eq_none_iff]
    · exact hpicks.inFlight_eq (congrArg (Option.map _) ht)

/-- Two endpoints in groups of two, one of them given twice, when the load made first has been
disabled. -/
theorem Runs.next_first_least_of_three :
    ∃ (start f : Fleet) (past : List (Fleet × Deed)) (g : Grouping), start.Blank {} ∧
      Runs Allowed start past f ∧ f.selection? 0 = some (.grouped g) ∧ 0 < g.maxGroup ∧
      given 0 past = [⟨1⟩, ⟨2⟩, ⟨1⟩] ∧
      ∃ states : List LoadRef, states.map f.loads.endpoint = [⟨1⟩, ⟨2⟩, ⟨1⟩] ∧
        g.groups.items = (partition 3 2).map (·.slice states) ∧
        ∃ group ∈ g.groups.items, ∃ place, g.draw f.words = some (group, place) ∧
          Picks f.now f.loads group place ((f.next 0).1.map (·.load)) (f.next 0).2.loads := by
  obtain ⟨start, hstart, -⟩ := exists_blank {}
  obtain ⟨b, f, hok⟩ := exists_build hstart.directory (by decide)
    (Strategy.selection { groupSize := 2 } .grouped) ({ groupSize := 2 } : Settings).telemetry
    (by decide) [] [⟨1⟩, ⟨2⟩, ⟨1⟩]
  obtain ⟨hb, states, -, -, -, hsel⟩ := hstart.rooted.selection?_build hok
  rw [hstart.seats] at hb
  obtain rfl : b = 0 := hb
  have hbuilt := Runs.step (.call (.build { groupSize := 2 } .grouped [] [⟨1⟩, ⟨2⟩, ⟨1⟩]))
    (@Runs.start Allowed start) trivial
  rw [perform_build hok] at hbuilt
  have hrun := hbuilt.step (.adjust ⟨0⟩ (.disable true)) trivial
  have hgiven : given 0 [(f, .adjust ⟨0⟩ (.disable true)),
      (start, .call (.build { groupSize := 2 } .grouped [] [⟨1⟩, ⟨2⟩, ⟨1⟩]))] =
        [⟨1⟩, ⟨2⟩, ⟨1⟩] := by
    simp only [given, assigned, hok]
    rfl
  have hg := ((hbuilt.rooted hstart).coherent.shifts_adjust ⟨0⟩ (.disable true)).grouped_iff.2 hsel
  obtain ⟨states', hes, hitems, hcases⟩ := hrun.next_first_least hstart hg Nat.two_pos
  rw [hgiven] at hes
  have hlen : states'.length = 3 := by simpa using congrArg List.length hes
  obtain ⟨hnil, -⟩ | ⟨group, hgroup, place, hdraw, hpicks, -⟩ := hcases
  · rw [hnil] at hlen
    cases hlen
  · rw [hlen] at hitems
    exact ⟨start, _, _, _, hstart, hrun, hg, Nat.two_pos, hgiven, states', hes, hitems, group,
      hgroup, place, hdraw, hpicks⟩

/-- The groups tile the row: as few of them as hold it, from its first position to its last, each
position in one of them, their sizes falling by one at most. A grouped balancer has just such
groups, and one behind another they are the endpoints that it was given last. -/
theorem groups_tile {len maxGroup : Nat} (hlen : 0 < len) (hsize : 0 < maxGroup) :
    let spans : List Span := partition len maxGroup
    spans.length = len ⌈/⌉ maxGroup ∧
    spans.head?.map Span.start = some 0 ∧ spans.getLast?.map Span.stop = some len ∧
    spans.IsChain (·.stop = ·.start) ∧ (∀ i < len, spans.countP (i ∈ ·) = 1) ∧
    (∀ s ∈ spans, 0 < s.size ∧ s.size ≤ maxGroup) ∧
    spans.Pairwise (·.size ≥ ·.size) ∧ (∀ s ∈ spans, ∀ s' ∈ spans, s.size ≤ s'.size + 1) ∧
    ∀ {c : LoadSettings} {start f : Fleet} {past : List (Fleet × Deed)} {b : Nat} {g : Grouping},
      start.Blank c → Runs Allowed start past f → f.selection? b = some (.grouped g) →
      g.maxGroup = maxGroup →
        g.sizes = (partition (given b past).length maxGroup).map Span.size ∧
          g.members.map f.loads.endpoint = given b past := by
  have hpartition := @partition_eq len maxGroup hsize
  have hsum := @sum_evenSizes_groupCount len maxGroup hsize
  have hne : evenSizes len (groupCount len maxGroup) ≠ [] := by
    intro hnil
    rw [hnil] at hsum
    exact hlen.ne hsum
  refine ⟨length_partition hsize, ?_, ?_, ?_, fun i hi => ?_,
    fun s hs => ⟨size_pos_of_mem_partition hs, size_le_of_mem_partition hs⟩, ?_,
    fun s hs s' hs' => le_succ_of_mem_evenSizes (size_mem_evenSizes hs) (size_mem_evenSizes hs'),
    fun hstart hrun hg hmax => ?_⟩
  · rw [hpartition]
    exact start_head?_consecutive 0 hne
  · rw [hpartition, stop_getLast?_consecutive 0 hne, hsum, Nat.zero_add]
  · rw [hpartition]
    exact isChain_consecutive _ _
  · rw [hpartition, countP_mem_consecutive, hsum, Nat.zero_add, if_pos ⟨Nat.zero_le i, hi⟩]
  · rw [← List.pairwise_map (f := Span.size) (R := (· ≥ ·)), map_size_partition hsize]
    exact pairwise_evenSizes _ _
  · subst hmax
    have hlaid := hrun.laidOutOver hstart _ _ hg
    exact ⟨hlaid.sizes_eq, hlaid.map_endpoint_members hsize⟩

/-- Three endpoints in groups of two, one of them given twice. -/
theorem groups_tile_of_three :
    (partition 3 2).length = 2 ∧ (∀ i < 3, (partition 3 2).countP (i ∈ ·) = 1) ∧
    ∃ (start f : Fleet) (past : List (Fleet × Deed)) (g : Grouping), start.Blank {} ∧
      Runs Allowed start past f ∧ f.selection? 0 = some (.grouped g) ∧ g.sizes = [2, 1] ∧
      g.members.map f.loads.endpoint = [⟨1⟩, ⟨2⟩, ⟨1⟩] := by
  obtain ⟨hcount, -, -, -, hcovers, -, -, -, hfleet⟩ :=
    groups_tile (by decide : 0 < 3) (by decide : 0 < 2)
  obtain ⟨start, hstart, -⟩ := exists_blank {}
  obtain ⟨b, f, hok⟩ := exists_build hstart.directory (by decide)
    (Strategy.selection { groupSize := 2 } .grouped) ({ groupSize := 2 } : Settings).telemetry
    (by decide) [] [⟨1⟩, ⟨2⟩, ⟨1⟩]
  obtain ⟨hb, states, -, -, -, hg⟩ := hstart.rooted.selection?_build hok
  rw [hstart.seats] at hb
  obtain rfl : b = 0 := hb
  have hrun := Runs.step (.call (.build { groupSize := 2 } .grouped [] [⟨1⟩, ⟨2⟩, ⟨1⟩]))
    (@Runs.start Allowed start) trivial
  rw [perform_build hok] at hrun
  have hgiven : given 0 [(start, .call (.build { groupSize := 2 } .grouped [] [⟨1⟩, ⟨2⟩, ⟨1⟩]))] =
      [⟨1⟩, ⟨2⟩, ⟨1⟩] := by
    simp only [given, assigned, hok]
    rfl
  obtain ⟨hsizes, hmembers⟩ := hfleet hstart hrun hg rfl
  rw [hgiven] at hsizes hmembers
  exact ⟨hcount.trans rfl, hcovers, start, f, _, _, hstart, hrun, hg, hsizes.trans rfl, hmembers⟩

end Fleet

end LeastLoad
