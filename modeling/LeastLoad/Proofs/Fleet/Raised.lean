import LeastLoad.Proofs.Fleet.Elsewhere
import LeastLoad.Proofs.Fleet.Overlooked

/-! # Loads that rise behind the back of a balancer

Let each member of a ranked balancer be the only member of another one. By asking these, any number
of units can be handed to any of the members, and the queue does not notice. With one unit at its
top and two on each of the two entries below, the top is handed out again, whatever stands behind
them. -/

namespace LeastLoad

namespace Ranking

variable {c : LoadSettings} {s : LoadTable × Ranking} {r top : LoadRef} {now : Nat}

theorem level_of_single (ht : Tidy s) (hplain : s.1.Plain c) (hw : s.2.wakeups = [])
    (hmem : ∀ x, x ∈ s.2.queue.contents ↔ x = r) : Level c s := by
  refine ⟨ht, hplain, fun i hi => ?_, hw⟩
  have hcontents : s.2.queue.contents = {r} :=
    (Multiset.Nodup.ext ht.nodup (Multiset.nodup_singleton r)).2 fun x => by
      rw [hmem, Multiset.mem_singleton]
  have hsize : s.2.queue.heap.size = 1 := by
    have hcard := congrArg Multiset.card hcontents
    rw [Multiset.card_singleton] at hcard
    exact hcard
  exact IndexedHeap.inOrder_of_size_le (by omega)

theorem take_of_lighter (ht : Tidy s) (hplain : s.1.Plain c) (hw : s.2.wakeups = [])
    (hpeek : s.2.queue.peek = some top) (hav : (s.1.load top).inFlight.toNat < 2 ^ 31)
    (hlt : ∀ i r, i = 1 ∨ i = 2 → s.2.queue.heap[i]? = some r →
      (s.1.load top).inFlight < (s.1.load r).inFlight) :
    (take now s).1 = some top := by
  have hplain' : (resync now s top).1.Plain c := hplain.update fun _ hl => hl.sync now
  have hload : ∀ r, ((resync now s top).1.load r).inFlight = (s.1.load r).inFlight :=
    hplain.inFlight_sync now
  have hstay : (resync now s top).2.queue = s.2.queue := by
    rw [queue_resync ht hpeek]
    refine IndexedHeap.reposition_top_eq_self hpeek fun i r hi hr hcmp => ?_
    have hle := hplain'.refines.of_lt hcmp
    rw [LoadTable.Lighter, hload, hload] at hle
    exact UInt32.not_le.2 (hlt i r hi hr) hle
  have hav' : ((resync now s top).1.load top).available = true := by
    rw [(hplain' top).available_iff, hload]
    exact hav
  rw [(take_of_stays hw hpeek hstay hav').2]

end Ranking

namespace Fleet

variable {f f' start : Fleet} {b : Nat} {r : LoadRef} {k : Ranking} {c : LoadSettings}
  {es : List Endpoint} {call : Call}

def Builds (_ : Fleet) (call : Call) : Prop :=
  ∃ s strategy listeners es, call = .build s strategy listeners es

def Asks (_ : Fleet) (call : Call) : Prop := ∃ b, call = .next b

theorem Builds.forward (h : Builds f call) : Forward f call := by
  obtain ⟨s, strategy, listeners, es, rfl⟩ := h
  trivial

theorem Asks.forward (h : Asks f call) : Forward f call := by
  obtain ⟨b, rfl⟩ := h
  trivial

/-- Another balancer than `b` has `r` as its only member. -/
def Tapped (f : Fleet) (b : Nat) (r : LoadRef) : Prop :=
  ∃ b' k', b' ≠ b ∧ f.ranking? b' = some k' ∧ ∀ x, x ∈ k'.queue.contents ↔ x = r

theorem exists_tapped (hstart : start.Fresh c) (hw : 0 < c.windows) (hf : Reaches Forward start f)
    (hk : f.ranking? b = some k) (rs : List LoadRef) (hrs : ∀ r ∈ rs, r ∈ k.queue.contents) :
    ∃ f', Reaches Builds f f' ∧ f'.ranking? b = some k ∧
      (∀ r ∈ k.queue.contents, f'.loads.load r = f.loads.load r) ∧ ∀ r ∈ rs, f'.Tapped b r := by
  induction rs with
  | nil => exact ⟨f, .start, hk, fun _ _ => rfl, nofun⟩
  | cons r rs ih =>
    obtain ⟨f₁, hreach, hk₁, hload, htapped⟩ := ih fun r' hr' => hrs r' (List.mem_cons_of_mem _ hr')
    have hsound : f₁.Sound c :=
      (hf.trans (hreach.mono fun _ _ => Builds.forward)).sound hstart.sound
    have hfind := hsound.find?_endpoint ⟨k, hk₁, hrs r List.mem_cons_self⟩
    have hlisted : ∀ e ∈ [f₁.loads.endpoint r], ∃ r, f₁.find? e = some r :=
      fun e he => ⟨r, List.mem_singleton.1 he ▸ hfind⟩
    obtain ⟨states, ha, hrank, hapart, hstates⟩ := hsound.exists_build hw hlisted
    refine ⟨f₁.apply (.build {} .ranked [] [f₁.loads.endpoint r]),
      hreach.step _ ⟨_, _, _, _, rfl⟩, (ha.others b (ne_size_of_ranking? hk₁)).trans hk₁,
      fun r' hr' => ?_, fun r' hr' => ?_⟩
    · exact (ha.grows.loads r' ((hsound.tidy b k hk₁).placed r' hr')).trans (hload r' hr')
    · rcases List.mem_cons.1 hr' with rfl | hr'
      · refine ⟨_, _, ne_size_of_ranking? hk₁, hrank, fun x => ?_⟩
        rw [(Ranking.Tidy.replace hapart).2, hstates]
        simp [hfind, eq_comm]
      · obtain ⟨b', k', hb', hk', hmem⟩ := htapped r' hr'
        exact ⟨b', k', hb', (ha.others b' (ne_size_of_ranking? hk')).trans hk', hmem⟩

theorem Tapped.raise (h : f.Tapped b r) (hstart : start.Fresh c) (hc : c.failureSustain = none)
    (hf : Reaches Forward start f) (hk : f.ranking? b = some k) (hr : r ∈ k.queue.contents)
    (hlt : (f.inFlight r).toNat < 2 ^ 31) :
    ∃ b', b' ≠ b ∧ (f.apply (.next b')).ranking? b = some k ∧
      (∀ x, (f.apply (.next b')).inFlight x = if x = r then f.inFlight x + 1 else f.inFlight x) ∧
      ∀ x, f.Tapped b x → (f.apply (.next b')).Tapped b x := by
  obtain ⟨b', k', hb', hk', hmem⟩ := h
  have hsound := hf.sound hstart.sound
  have hplain := hf.plain hstart hc
  have hlevel : Ranking.Level c (f.loads, k') :=
    Ranking.level_of_single (hsound.tidy b' k' hk') hplain (hf.asleep hstart hc hk') hmem
  obtain ⟨hloads, hranks, -⟩ := f.apply_next b'
  obtain ⟨hanswer, -, hrank⟩ := next_of_ranking? hk'
  obtain ⟨t, ht, hnext⟩ := f.loads_next b'
  have hkeeps : Ranking.Keeps (f.loads, k') (Ranking.take f.now (f.loads, k')).2 :=
    hlevel.tidy.keeps_take
  -- `r` is all that the other balancer has
  have htake : (Ranking.take f.now (f.loads, k')).1 = some r := by
    obtain ⟨-, hsome, hnone⟩ :
      Ranking.Level c (Ranking.take f.now (f.loads, k')).2 ∧ _ := hlevel.take
    cases htake : (Ranking.take f.now (f.loads, k')).1 with
    | none => exact absurd hlt (Nat.not_lt.2 (hnone htake r ((hmem r).2 rfl)))
    | some top => exact congrArg some ((hmem top).1 (hsome top htake).1)
  rw [hanswer, htake] at hnext
  refine ⟨b', hb', ?_, fun x => ?_, fun x hx => ?_⟩
  · rw [hranks, hrank, if_neg hb', hk]
  · have hsame := (hplain.synced ht).2
    have hplace := (hsound.tidy b k hk).placed r hr
    rw [← ht.size] at hplace
    rw [inFlight, hloads, hnext]
    change ((t.update r (·.acquire f.now 1)).load x).inFlight = _
    split
    · next hx =>
      rw [hx, LoadTable.load_update_self hplace]
      exact congrArg (· + 1) (hsame r)
    · next hx =>
      rw [LoadTable.load_update_of_ne (Ne.symm hx)]
      exact hsame x
  · obtain ⟨b'', k'', hb'', hk'', hmem''⟩ := hx
    by_cases hbb : b' = b''
    · subst hbb
      obtain rfl : k' = k'' := Option.some.inj (hk'.symm.trans hk'')
      refine ⟨b', _, hb'', (hranks b').trans ((hrank b').trans (if_pos rfl)), fun y => ?_⟩
      rw [hkeeps.contents]
      exact hmem'' y
    · have hrank'' := (hranks b'').trans ((hrank b'').trans ((if_neg hbb).trans hk''))
      exact ⟨b'', k'', hb'', hrank'', hmem''⟩

theorem exists_raised (hstart : start.Fresh c) (hc : c.failureSustain = none)
    (hf : Reaches Forward start f) (hk : f.ranking? b = some k)
    (hidle : ∀ r ∈ k.queue.contents, f.inFlight r = 0)
    (htapped : ∀ r ∈ k.queue.contents, f.Tapped b r) (rs : List LoadRef)
    (hrs : ∀ r ∈ rs, r ∈ k.queue.contents) (hlen : rs.length < 2 ^ 31) :
    ∃ f', Reaches Asks f f' ∧ f'.ranking? b = some k ∧
      (∀ r ∈ k.queue.contents, f'.Tapped b r) ∧
      ∀ r ∈ k.queue.contents, (f'.inFlight r).toNat = rs.count r := by
  induction rs with
  | nil =>
    refine ⟨f, .start, hk, htapped, fun r hr => ?_⟩
    rw [hidle r hr]
    rfl
  | cons r rs ih =>
    rw [List.length_cons] at hlen
    obtain ⟨f₁, hreach, hk₁, htapped₁, hcount⟩ :=
      ih (fun r' hr' => hrs r' (List.mem_cons_of_mem _ hr')) (by omega)
    have hr := hrs r List.mem_cons_self
    have hbound : rs.count r < 2 ^ 31 := (List.count_le_length).trans_lt (by omega)
    obtain ⟨b', -, hk₂, hload, htapped₂⟩ := (htapped₁ r hr).raise hstart hc
      (hf.trans (hreach.mono fun _ _ => Asks.forward)) hk₁ hr (by rw [hcount r hr]; exact hbound)
    refine ⟨_, hreach.step _ ⟨b', rfl⟩, hk₂, fun r' hr' => htapped₂ r' (htapped₁ r' hr'),
      fun r' hr' => ?_⟩
    rw [hload, List.count_cons]
    split
    · next heq =>
      rw [heq, UInt32.toNat_add, hcount r hr, beq_self_eq_true, if_pos rfl]
      exact Nat.mod_eq_of_lt (by change rs.count r + 1 < 2 ^ 32; omega)
    · next hne =>
      rw [hcount r' hr', if_neg (by simpa using Ne.symm hne)]
      rfl

/-- A request is answered although a member has fewer units in flight than the one handed out. -/
def PassesOver (f : Fleet) (b : Nat) : Prop :=
  ∃ t, (f.next b).1 = some t ∧ ∃ r, f.Ranks b r ∧ f.inFlight r < f.inFlight t.load

/-- A lightly loaded top hides an idle entry from a queue whose next two entries are loaded more
heavily. -/
theorem exists_hidden (hstart : start.Fresh c) (hc : c.failureSustain = none)
    (hf : Reaches Forward start f) (hk : f.ranking? b = some k) (hsize : 4 ≤ k.queue.heap.size)
    (hidle : ∀ r ∈ k.queue.contents, f.inFlight r = 0)
    (htapped : ∀ r ∈ k.queue.contents, f.Tapped b r) :
    ∃ f', Reaches Asks f f' ∧ f'.PassesOver b := by
  have htidy := (hf.sound hstart.sound).tidy b k hk
  obtain ⟨top, htop⟩ : ∃ r, k.queue.heap[0]? = some r := ⟨_, Array.getElem?_eq_getElem (by omega)⟩
  obtain ⟨left, hleft⟩ : ∃ r, k.queue.heap[1]? = some r :=
    ⟨_, Array.getElem?_eq_getElem (by omega)⟩
  obtain ⟨right, hright⟩ : ∃ r, k.queue.heap[2]? = some r :=
    ⟨_, Array.getElem?_eq_getElem (by omega)⟩
  obtain ⟨hidden, hhidden⟩ : ∃ r, k.queue.heap[3]? = some r :=
    ⟨_, Array.getElem?_eq_getElem (by omega)⟩
  have htopmem := IndexedHeap.mem_of_slot htop
  have hleftmem := IndexedHeap.mem_of_slot hleft
  have hrightmem := IndexedHeap.mem_of_slot hright
  have hhiddenmem := IndexedHeap.mem_of_slot hhidden
  have hrs : ∀ r ∈ [top, left, left, right, right], r ∈ k.queue.contents := by
    intro r hr
    simp only [List.mem_cons, List.not_mem_nil, or_false] at hr
    rcases hr with rfl | rfl | rfl | rfl | rfl <;> assumption
  obtain ⟨f', hreach, hk', -, hcount⟩ :=
    exists_raised hstart hc hf hk hidle htapped _ hrs (by simp)
  have hf' := hf.trans (hreach.mono fun _ _ => Asks.forward)
  have htl := htidy.ne_of_slots htop hleft (by decide)
  have htr := htidy.ne_of_slots htop hright (by decide)
  have hlr := htidy.ne_of_slots hleft hright (by decide)
  have hone : (f'.inFlight top).toNat = 1 := by
    rw [hcount top htopmem]
    simp [Ne.symm htl, Ne.symm htr]
  have hzero : (f'.inFlight hidden).toNat = 0 := by
    rw [hcount hidden hhiddenmem]
    simp [htidy.ne_of_slots htop hhidden (by decide), htidy.ne_of_slots hleft hhidden (by decide),
      htidy.ne_of_slots hright hhidden (by decide)]
  have htwo : ∀ i r, i = 1 ∨ i = 2 → k.queue.heap[i]? = some r → (f'.inFlight r).toNat = 2 := by
    rintro i r (rfl | rfl) hr
    · obtain rfl := Option.some.inj (hleft.symm.trans hr)
      rw [hcount left hleftmem]
      simp [htl, Ne.symm hlr]
    · obtain rfl := Option.some.inj (hright.symm.trans hr)
      rw [hcount right hrightmem]
      simp [htr, hlr]
  have htake : (Ranking.take f'.now (f'.loads, k)).1 = some top :=
    Ranking.take_of_lighter ((hf'.sound hstart.sound).tidy b k hk') (hf'.plain hstart hc)
      (hf'.asleep hstart hc hk') htop (by rw [← inFlight, hone]; decide) fun i r hi hr => by
        rw [← inFlight, ← inFlight, UInt32.lt_iff_toNat_lt, hone, htwo i r hi hr]
        decide
  obtain ⟨hanswer, -⟩ := next_of_ranking? hk'
  rw [htake] at hanswer
  refine ⟨f', hreach, _, hanswer, hidden, ⟨k, hk', hhiddenmem⟩, ?_⟩
  rw [UInt32.lt_iff_toNat_lt, hzero, hone]
  decide

theorem Fresh.exists_passesOver (hstart : start.Fresh c) (hc : c.failureSustain = none)
    (hw : 0 < c.windows) (hcard : 3 < es.toFinset.card) :
    ∃ f₁ f, Reaches Builds (start.apply (.build {} .ranked [] es)) f₁ ∧ Reaches Asks f₁ f ∧
      f.PassesOver 0 := by
  obtain ⟨s, hs, hfleet, hplace, hes, -⟩ := hstart.exists_solo hw es
  obtain ⟨t, states, hrests, hunused, -⟩ := hs.unused
  have hsize := hrests.card_contents
  rw [hes] at hsize
  have hk := hrests.serves.alone.ranked
  rw [hplace] at hk
  have hloads := hrests.loads
  have hcall : Forward start (.build {} .ranked [] es) := trivial
  have hreach := Reaches.start.step _ hcall
  rw [hfleet] at hk hloads
  generalize start.apply (.build {} .ranked [] es) = f₀ at hk hloads hreach
  obtain ⟨f₁, hbuilt, hk₁, hload, htapped⟩ := exists_tapped hstart hw hreach hk
    (Ranking.replace t {} states).queue.toList fun _ hr => hr
  obtain ⟨f, hasked, hover⟩ := exists_hidden hstart hc
    (hreach.trans (hbuilt.mono fun _ _ => Builds.forward)) hk₁ (hcard.trans_eq hsize.symm)
    (fun r hr => by
      rw [inFlight, hload r hr, hloads, EndpointLoad.inFlight, (hunused r).1.idle.concurrency]
      rfl) htapped
  exact ⟨f₁, f, hbuilt, hasked, hover⟩

/-- As long as no other balancer hands out a member, what a ranked balancer hands out is least
loaded; and always if it has at most three members. Otherwise it is no more loaded than three
members. Over four endpoints or more there is a run, of builds and requests only, after which an
endpoint is handed out that is not least loaded. -/
theorem Fresh.least_unless_handed_elsewhere (hstart : start.Fresh c)
    (hc : c.failureSustain = none) :
    (∀ f, Reaches Forward start f → ∀ b k, f.ranking? b = some k →
      ∀ t, (f.next b).1 = some t → f.Ranks b t.load ∧
        (Undisturbed start f b ∨ k.queue.contents.card ≤ 3 → f.Least b t.load) ∧
        (f.Least b t.load ∨ ∃ rs : List LoadRef, rs.Nodup ∧ rs.length = 3 ∧
          ∀ r ∈ rs, f.Ranks b r ∧ f.inFlight t.load ≤ f.inFlight r)) ∧
    (0 < c.windows → ∀ es : List Endpoint, 3 < es.toFinset.card →
      ∃ f₁ f, Reaches Builds (start.apply (.build {} .ranked [] es)) f₁ ∧ Reaches Asks f₁ f ∧
        f.PassesOver 0) :=
  ⟨fun _ hf _ _ hk _ ht => hf.least_of_next hstart hc hk ht,
    fun hw _ hcard => hstart.exists_passesOver hc hw hcard⟩

/-- Another balancer has handed out a unit of one of two members, and the other member is idle. -/
theorem Fresh.exists_shared_unit (hstart : start.Fresh c) (hc : c.failureSustain = none)
    (hw : 0 < c.windows) {e e' : Endpoint} (he : e ∈ es) (he' : e' ∈ es) (hne : e ≠ e') :
    ∃ f b' k r r', Reaches Forward start f ∧ b' ≠ 0 ∧ Reaches Forward start (f.apply (.next b')) ∧
      (f.apply (.next b')).ranking? 0 = some k ∧
      (∀ x ∈ k.queue.contents, (f.apply (.next b')).loads.endpoint x ∈ es) ∧
      r ∈ k.queue.contents ∧ r' ∈ k.queue.contents ∧
      (f.apply (.next b')).inFlight r = 1 ∧ (f.apply (.next b')).inFlight r' = 0 := by
  obtain ⟨s, hs, hfleet, hplace, hes, -⟩ := hstart.exists_solo hw es
  obtain ⟨t, states, hrests, hunused, -⟩ := hs.unused
  have hk := hrests.serves.alone.ranked
  rw [hplace] at hk
  have hreach : Reaches Forward start s.fleet := by
    have hcall : Forward start (.build {} .ranked [] es) := trivial
    exact hfleet ▸ Reaches.start.step _ hcall
  obtain ⟨r, hr, hfind⟩ := hrests.serves.covers.found e (hes ▸ he)
  obtain ⟨r', hr', hfind'⟩ := hrests.serves.covers.found e' (hes ▸ he')
  have hapart : r' ≠ r := by
    rintro rfl
    exact hne ((hrests.endpoint_of_find? hfind).1.symm.trans (hrests.endpoint_of_find? hfind').1)
  obtain ⟨f, hbuilt, hk₁, hload, htapped⟩ := exists_tapped hstart hw hreach hk [r]
    fun x hx => List.mem_singleton.1 hx ▸ hr
  have hf := hreach.trans (hbuilt.mono fun _ _ => Builds.forward)
  have hidle : ∀ x ∈ (Ranking.replace t {} states).queue.contents, f.inFlight x = 0 := by
    intro x hx
    rw [inFlight, hload x hx, hrests.loads, EndpointLoad.inFlight, (hunused x).1.idle.concurrency]
    rfl
  obtain ⟨b', hb', hk₂, hunits, -⟩ := (htapped r List.mem_cons_self).raise hstart hc hf hk₁ hr
    (by rw [hidle r hr]; decide)
  have hasked : Forward f (.next b') := trivial
  refine ⟨f, b', _, r, r', hf, hb', hf.step _ hasked, hk₂, fun x hx => ?_, hr, hr', ?_, ?_⟩
  · have hend : (f.apply (.next b')).loads.endpoint x = f.loads.endpoint x := by
      rw [(f.apply_next b').1]
      exact (f.stirred_next b').touched.endpoint x
    rw [hend, LoadTable.endpoint, hload x hx, ← hes]
    exact hrests.serves.covers.only x hx
  · rw [hunits, if_pos rfl, hidle r hr]
    rfl
  · rw [hunits, if_neg hapart, hidle r' hr']

/-- Another balancer has handed out a unit of one of four endpoints when they are given to a
balancer again. An idle one is handed out next. -/
theorem Fresh.least_unless_handed_elsewhere_of_four :
    ∃ start f f' : Fleet, start.Fresh {} ∧ Reaches Forward start f ∧ ∃ b' r, b' ≠ 0 ∧
      (f.apply (.next b')).Ranks 0 r ∧ (f.apply (.next b')).inFlight r = 1 ∧
      (f.apply (.next b')).update 0 [⟨0⟩, ⟨1⟩, ⟨2⟩, ⟨3⟩] = .ok f' ∧ Undisturbed start f' 0 ∧
      f'.Ranks 0 r ∧ f'.inFlight r = 1 ∧ (∃ k, f'.ranking? 0 = some k ∧ k.queue.contents.card = 4) ∧
      ∃ t, (f'.next 0).1 = some t ∧ f'.Least 0 t.load ∧ f'.inFlight t.load = 0 := by
  obtain ⟨start, hstart, -⟩ := exists_fresh {}
  obtain ⟨f, b', k, r, r', hf, hb', hasked, hk, hends, hr, hr', hone, hzero⟩ :=
    hstart.exists_shared_unit rfl (by decide)
      (by decide : (⟨0⟩ : Endpoint) ∈ [⟨0⟩, ⟨1⟩, ⟨2⟩, ⟨3⟩]) (by decide : (⟨1⟩ : Endpoint) ∈ _)
      (by decide)
  have hsound := hasked.sound hstart.sound
  obtain ⟨d, hd, hsettings, -⟩ := hsound.registered
  obtain ⟨f', hok⟩ := exists_update hd (hsettings ▸ by decide) 0 [⟨0⟩, ⟨1⟩, ⟨2⟩, ⟨3⟩]
  have hquiet : Undisturbed start f' 0 := ⟨f', .inr ⟨_, _, hasked, hok⟩, .start⟩
  obtain ⟨hreach, hlevel⟩ := hquiet.level hstart rfl
  have ha := hsound.update hok
  obtain ⟨states, hrank, hapart, hes, hfound⟩ := ha.own
  rw [hk, Option.map_some] at hrank
  have hlevel := hlevel _ hrank
  have hmem : ∀ x ∈ k.queue.contents, x ∈ (k.replace f'.loads states).queue.contents :=
    fun x hx => ((Ranking.Tidy.replace hapart).2 x).2
      (hfound _ (hends x hx) x (hsound.find?_endpoint ⟨k, hk, hx⟩))
  have hsame : ∀ x ∈ k.queue.contents, f'.inFlight x = (f.apply (.next b')).inFlight x :=
    fun x hx => congrArg EndpointLoad.inFlight
      (ha.grows.loads x ((hsound.tidy 0 k hk).placed x hx))
  have hcard : (k.replace f'.loads states).queue.contents.card = 4 := by
    rw [← Multiset.card_map f'.loads.endpoint, Ranking.map_endpoint_contents_replace hapart, hes]
    rfl
  refine ⟨start, f, f', hstart, hf, b', r, hb', ⟨k, hk, hr⟩, hone, hok, hquiet,
    ⟨_, hrank, hmem r hr⟩, (hsame r hr).trans hone, ⟨_, hrank, hcard⟩, ?_⟩
  cases hn : (f'.next 0).1 with
  | none =>
    obtain ⟨hanswer, -⟩ := next_of_ranking? hrank
    rw [hn, eq_comm, Option.map_eq_none_iff] at hanswer
    have hbig := hlevel.take.2.2 hanswer r (hmem r hr)
    change 2 ^ 31 ≤ (f'.inFlight r).toNat at hbig
    rw [hsame r hr, hone] at hbig
    exact absurd hbig (by decide)
  | some t =>
    have hleast := ((hstart.least_unless_handed_elsewhere rfl).1 _ hreach 0 _ hrank t hn).2.1
      (.inl hquiet)
    have hle := hleast r' ⟨_, hrank, hmem r' hr'⟩
    rw [hsame r' hr', hzero] at hle
    exact ⟨t, rfl, hleast, UInt32.le_zero_iff.1 hle⟩

/-- Four endpoints, each also the only one of another balancer. -/
theorem Fresh.passesOver_of_shared :
    ∃ start : Fleet, start.Fresh {} ∧
      ∃ f₁ f, Reaches Builds (start.apply (.build {} .ranked [] [⟨0⟩, ⟨1⟩, ⟨2⟩, ⟨3⟩])) f₁ ∧
        Reaches Asks f₁ f ∧ f.PassesOver 0 := by
  obtain ⟨start, hstart, -⟩ := exists_fresh {}
  exact ⟨start, hstart, hstart.exists_passesOver rfl (by decide) (by decide)⟩

end Fleet

end LeastLoad
