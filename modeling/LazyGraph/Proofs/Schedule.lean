import Mathlib.Data.List.Nodup
import LazyGraph.Schedule

/-!
Schedules: the windows and groups that adding, closing and settling leave, and where the
selections of a ticket are.
-/
namespace LazyGraph.Schedule

/-- Groups are numbered, each has one window at most, and what is pending or open has not settled. -/
structure Orderly (s : Schedule) : Prop where
  distinct : (s.windows.map (·.group)).Nodup
  opened : ∀ w ∈ s.windows, w.group < s.nextGroup ∧ s.outcomes.lookup w.group = none
  pending : ∀ q ∈ s.pending, s.outcomes.lookup q.2 = none
  settled : ∀ q ∈ s.outcomes, q.1 < s.nextGroup

/-- The window of a group holds the selection. -/
def Holds (s : Schedule) (group : Nat) (x : Selection) : Prop :=
  ∃ w ∈ s.windows, w.group = group ∧ x ∈ w.selections

variable {s t u : Schedule} {group : Nat}

theorem Orderly.empty : Orderly {} where
  distinct := List.nodup_nil
  opened _ h := absurd h List.not_mem_nil
  pending _ h := absurd h List.not_mem_nil
  settled _ h := absurd h List.not_mem_nil

/-- Keys stay distinct with one more item, which has a key of its own. -/
theorem nodup_map_concat {α κ : Type} {key : α → κ} {l : List α} {x : α} (hl : (l.map key).Nodup)
    (hx : ∀ y ∈ l, key y ≠ key x) : ((l ++ [x]).map key).Nodup := by
  rw [List.map_append, List.nodup_append]
  refine ⟨hl, List.nodup_singleton _, fun a ha b hb e => ?_⟩
  obtain ⟨y, hy, rfl⟩ := List.mem_map.mp ha
  exact hx y hy (e.trans (List.mem_singleton.mp hb))

/-- Where keys are distinct, each item is found by its own. -/
theorem find?_of_mem {α κ : Type} [DecidableEq κ] {key : α → κ} {l : List α}
    (hn : (l.map key).Nodup) {x : α} (hx : x ∈ l) : l.find? (key · = key x) = some x := by
  have hfound : (l.find? (key · = key x)).isSome := by
    rw [List.find?_isSome]
    exact ⟨x, hx, decide_eq_true rfl⟩
  obtain ⟨y, hy⟩ := Option.isSome_iff_exists.mp hfound
  have hkey := List.find?_some hy
  simp only [decide_eq_true_eq] at hkey
  rw [hy, List.inj_on_of_nodup_map hn (List.mem_of_find?_eq_some hy) hx hkey]

theorem mem_of_lookup {κ α : Type} [BEq κ] [LawfulBEq κ] {l : List (κ × α)} {key : κ} {v : α}
    (h : l.lookup key = some v) : (key, v) ∈ l := by
  obtain ⟨before, after, rfl, _⟩ := List.lookup_eq_some_iff.mp h
  exact List.mem_append_right _ List.mem_cons_self

theorem not_mem_of_lookup {κ α : Type} [BEq κ] [LawfulBEq κ] {l : List (κ × α)} {key : κ} {v : α}
    (h : l.lookup key = none) : (key, v) ∉ l := fun hm =>
  absurd rfl (bne_iff_ne.mp (List.lookup_eq_none_iff.mp h _ hm))

/-- Where keys are distinct, a pair is found by its key. -/
theorem lookup_eq_some_iff {κ α : Type} [BEq κ] [LawfulBEq κ] {l : List (κ × α)}
    (hn : (l.map (·.1)).Nodup) {key : κ} {v : α} : l.lookup key = some v ↔ (key, v) ∈ l := by
  refine ⟨mem_of_lookup, fun hm => ?_⟩
  cases hl : l.lookup key with
  | none => exact absurd hm (not_mem_of_lookup hl)
  | some w =>
      have hsame := List.inj_on_of_nodup_map hn (mem_of_lookup hl) hm rfl
      rw [(Prod.mk.inj hsame).2]

theorem lookup_eq_none {α : Type} {l : List (Nat × α)} {key : Nat} (h : ∀ q ∈ l, q.1 ≠ key) :
    l.lookup key = none :=
  List.lookup_eq_none_iff.mpr fun q hq => bne_iff_ne.mpr (Ne.symm (h q hq))

/-- The group that is numbered next is new. -/
theorem Orderly.lookup_nextGroup (h : s.Orderly) : s.outcomes.lookup s.nextGroup = none :=
  lookup_eq_none fun q hq => Nat.ne_of_lt (h.settled q hq)

/-! ### Adding -/

/-- The second schedule has selections more than the first one, and windows for them. -/
structure Adds (ss : List Selection) (s t : Schedule) : Prop where
  orderly : t.Orderly
  outcomes : t.outcomes = s.outcomes
  nextGroup : s.nextGroup ≤ t.nextGroup
  windows : ∀ w ∈ t.windows, (∃ w' ∈ s.windows, w'.group = w.group) ∨ s.nextGroup ≤ w.group
  selections : ∀ w ∈ t.windows, ∀ x ∈ w.selections, x ∈ ss ∨ ∃ w' ∈ s.windows, x ∈ w'.selections
  holds : ∀ group x, s.Holds group x → t.Holds group x
  before : s.pending ⊆ t.pending
  pending : ∀ q ∈ t.pending, q ∈ s.pending ∨ ∃ x ∈ ss, x.id = q.1 ∧ t.Holds q.2 x

theorem Adds.refl (h : s.Orderly) (ss : List Selection) : Adds ss s s where
  orderly := h
  outcomes := rfl
  nextGroup := Nat.le_refl _
  windows w hw := .inl ⟨w, hw, rfl⟩
  selections w hw _ hx := .inr ⟨w, hw, hx⟩
  holds _ _ h := h
  before := List.Subset.refl _
  pending _ hq := .inl hq

theorem Adds.trans {ss : List Selection} (h : Adds ss s t) (h' : Adds ss t u) : Adds ss s u where
  orderly := h'.orderly
  outcomes := h'.outcomes.trans h.outcomes
  nextGroup := Nat.le_trans h.nextGroup h'.nextGroup
  windows w hw := by
    rcases h'.windows w hw with ⟨w', hw', he⟩ | hle
    · rw [← he]
      exact h.windows w' hw'
    · exact .inr (Nat.le_trans h.nextGroup hle)
  selections w hw x hx := by
    rcases h'.selections w hw x hx with hx | ⟨w', hw', hx⟩
    · exact .inl hx
    · exact h.selections w' hw' x hx
  holds group x hx := h'.holds group x (h.holds group x hx)
  before := List.Subset.trans h.before h'.before
  pending q hq := by
    rcases h'.pending q hq with hq | hq
    · rcases h.pending q hq with hq | ⟨x, hx, hid, hholds⟩
      · exact .inl hq
      · exact .inr ⟨x, hx, hid, h'.holds _ x hholds⟩
    · exact .inr hq

theorem isPending_iff {id : Nat} : s.isPending id = true ↔ ∃ group, (id, group) ∈ s.pending := by
  rw [isPending, groupOf?]
  constructor
  · intro h
    obtain ⟨group, hg⟩ := Option.isSome_iff_exists.mp h
    exact ⟨group, mem_of_lookup hg⟩
  · intro ⟨group, hg⟩
    cases hl : s.pending.lookup id with
    | none => exact absurd hg (not_mem_of_lookup hl)
    | some other => rfl

theorem adds_openWindow (h : s.Orderly) (ss : List Selection) (key : BatchKey) :
    Adds ss s (s.openWindow key).2 ∧ (s.openWindow key).2.pending = s.pending ∧
      ∃ w ∈ (s.openWindow key).2.windows, w.group = (s.openWindow key).1 := by
  rw [openWindow]
  split
  · rename_i w hw
    exact ⟨.refl h ss, rfl, w, List.mem_of_find?_eq_some hw, rfl⟩
  · have hmem : ∀ w ∈ s.windows ++ [{ key, group := s.nextGroup, selections := [] }],
        w ∈ s.windows ∨ w = { key, group := s.nextGroup, selections := [] } :=
      fun w hw => (List.mem_append.mp hw).imp_right List.mem_singleton.mp
    refine ⟨⟨⟨?_, ?_, h.pending, ?_⟩, rfl, Nat.le_succ _, ?_, ?_, ?_, List.Subset.refl _,
      fun _ hq => .inl hq⟩, rfl, _, List.mem_append_right _ (List.mem_singleton.mpr rfl), rfl⟩
    · exact nodup_map_concat h.distinct fun w hw => Nat.ne_of_lt (h.opened w hw).1
    · intro w hw
      rcases hmem w hw with hw | rfl
      · exact ⟨Nat.lt_succ_of_lt (h.opened w hw).1, (h.opened w hw).2⟩
      · exact ⟨Nat.lt_succ_self _, h.lookup_nextGroup⟩
    · exact fun q hq => Nat.lt_succ_of_lt (h.settled q hq)
    · intro w hw
      rcases hmem w hw with hw | rfl
      · exact .inl ⟨w, hw, rfl⟩
      · exact .inr (Nat.le_refl _)
    · intro w hw x hx
      rcases hmem w hw with hw | rfl
      · exact .inr ⟨w, hw, hx⟩
      · exact absurd hx List.not_mem_nil
    · rintro group x ⟨w, hw, hx⟩
      exact ⟨w, List.mem_append_left _ hw, hx⟩

/-- A window once a selection has joined the group. -/
def taken (group : Nat) (x : Selection) (w : Window) : Window :=
  if w.group = group then { w with selections := w.selections ++ [x] } else w

theorem group_taken (x : Selection) (w : Window) : (taken group x w).group = w.group := by
  rw [taken]
  split <;> rfl

theorem selections_taken (group : Nat) (x : Selection) (w : Window) :
    w.selections ⊆ (taken group x w).selections ∧
      ∀ y ∈ (taken group x w).selections, y = x ∨ y ∈ w.selections := by
  rw [taken]
  split
  · exact ⟨List.subset_append_left _ _, fun y hy =>
      (List.mem_append.mp hy).symm.imp_left List.mem_singleton.mp⟩
  · exact ⟨List.Subset.refl _, fun y hy => .inr hy⟩

theorem join_eq {x : Selection} (hp : ¬ s.isPending x.id) : join group s x =
    { s with windows := s.windows.map (taken group x), pending := s.pending ++ [(x.id, group)] } := by
  rw [join, if_neg hp]
  rfl

/-- One selection joins the window of a group. -/
theorem adds_join (h : s.Orderly) {ss : List Selection} {x : Selection} (hx : x ∈ ss)
    (hw : ∃ w ∈ s.windows, w.group = group) :
    Adds ss s (join group s x) ∧ (∃ w ∈ (join group s x).windows, w.group = group) ∧
      (join group s x).isPending x.id = true ∧
      ∀ q ∈ (join group s x).pending, q ∈ s.pending ∨ q.2 = group := by
  by_cases hp : s.isPending x.id = true
  · rw [join, if_pos hp]
    exact ⟨.refl h ss, hw, hp, fun q hq => .inl hq⟩
  rw [join_eq hp]
  obtain ⟨window, hwindow, hin⟩ := hw
  have hheld : ∃ w ∈ s.windows.map (taken group x), w.group = group ∧ x ∈ w.selections := by
    refine ⟨taken group x window, List.mem_map_of_mem hwindow, (group_taken x window).trans hin, ?_⟩
    rw [taken, if_pos hin]
    exact List.mem_append_right _ (List.mem_singleton.mpr rfl)
  have hpending : ∀ q ∈ s.pending ++ [(x.id, group)], q ∈ s.pending ∨ q = (x.id, group) :=
    fun q hq => (List.mem_append.mp hq).imp_right List.mem_singleton.mp
  have horderly : Orderly
      { s with windows := s.windows.map (taken group x), pending := s.pending ++ [(x.id, group)] } := by
    refine ⟨?_, fun w hw => ?_, fun q hq => ?_, h.settled⟩
    · have hmap : (s.windows.map (taken group x)).map (·.group) = s.windows.map (·.group) := by
        rw [List.map_map]
        exact List.map_congr_left fun w _ => group_taken x w
      rw [hmap]
      exact h.distinct
    · obtain ⟨w', hw', rfl⟩ := List.mem_map.mp hw
      rw [group_taken]
      exact h.opened w' hw'
    · rcases hpending q hq with hq | rfl
      · exact h.pending q hq
      · exact hin ▸ (h.opened window hwindow).2
  refine ⟨⟨horderly, rfl, Nat.le_refl _, fun w hw => ?_, fun w hw y hy => ?_, ?_,
    List.subset_append_left _ _, fun q hq => ?_⟩, ?_, ?_, fun q hq => ?_⟩
  · obtain ⟨w', hw', rfl⟩ := List.mem_map.mp hw
    exact .inl ⟨w', hw', (group_taken x w').symm⟩
  · obtain ⟨w', hw', rfl⟩ := List.mem_map.mp hw
    rcases (selections_taken group x w').2 y hy with rfl | hy
    · exact .inl hx
    · exact .inr ⟨w', hw', hy⟩
  · rintro other y ⟨w, hw, hg, hy⟩
    exact ⟨taken group x w, List.mem_map_of_mem hw, (group_taken x w).trans hg,
      (selections_taken group x w).1 hy⟩
  · rcases hpending q hq with hq | rfl
    · exact .inl hq
    · exact .inr ⟨x, hx, rfl, hheld⟩
  · obtain ⟨w, hw, hg, _⟩ := hheld
    exact ⟨w, hw, hg⟩
  · exact isPending_iff.mpr ⟨group, List.mem_append_right _ (List.mem_singleton.mpr rfl)⟩
  · rcases hpending q hq with hq | rfl
    · exact .inl hq
    · exact .inr rfl

theorem adds_joins (h : s.Orderly) {ss fresh : List Selection} (hf : fresh ⊆ ss)
    (hw : ∃ w ∈ s.windows, w.group = group) :
    Adds ss s (fresh.foldl (join group) s) ∧
      (∀ x ∈ fresh, (fresh.foldl (join group) s).isPending x.id = true) ∧
      ∀ q ∈ (fresh.foldl (join group) s).pending, q ∈ s.pending ∨ q.2 = group := by
  induction fresh generalizing s with
  | nil => exact ⟨.refl h ss, fun _ h => absurd h List.not_mem_nil, fun q hq => .inl hq⟩
  | cons x fresh ih =>
      obtain ⟨hx, hfresh⟩ := List.cons_subset.mp hf
      obtain ⟨hadds, hwindow, hpending, hnew⟩ := adds_join h hx hw
      obtain ⟨hadds', hpending', hnew'⟩ := ih hadds.orderly hfresh hwindow
      refine ⟨hadds.trans hadds', List.forall_mem_cons.mpr ⟨?_, hpending'⟩, fun q hq => ?_⟩
      · obtain ⟨g, hg⟩ := isPending_iff.mp hpending
        exact isPending_iff.mpr ⟨g, hadds'.before hg⟩
      · rcases hnew' q hq with hq | hq
        · exact hnew q hq
        · exact .inr hq

/-- Each selection that is added is pending with a group of the ticket. -/
theorem adds_add (h : s.Orderly) (ss : List Selection) (key : BatchKey) :
    Adds ss s (s.add ss key).2 ∧
      ∀ x ∈ ss, ∃ group ∈ (s.add ss key).1, (x.id, group) ∈ (s.add ss key).2.pending := by
  have hjoined : ∀ x ∈ ss, s.isPending x.id = true →
      ∃ group ∈ (ss.filterMap fun x => s.groupOf? x.id).eraseDups, (x.id, group) ∈ s.pending := by
    intro x hx hp
    obtain ⟨group, hg⟩ := Option.isSome_iff_exists.mp hp
    refine ⟨group, List.mem_eraseDups.mpr ?_, mem_of_lookup hg⟩
    exact List.mem_filterMap.mpr ⟨x, hx, hg⟩
  have hin : ∀ x ∈ ss, s.isPending x.id ≠ true → x ∈ ss.filter fun x => !s.isPending x.id :=
    fun x hx hp => List.mem_filter.mpr ⟨hx, by rw [Bool.eq_false_iff.mpr hp]; rfl⟩
  rw [add]
  split
  · rename_i hfresh
    refine ⟨.refl h ss, fun x hx => hjoined x hx ?_⟩
    by_cases hp : s.isPending x.id = true
    · exact hp
    · exact absurd (hfresh ▸ hin x hx hp) List.not_mem_nil
  · obtain ⟨hopened, hsame, hwindow⟩ := adds_openWindow h ss key
    cases ho : s.openWindow key with
    | mk group t =>
        rw [ho] at hopened hsame hwindow
        have hfresh : (ss.filter fun x => !s.isPending x.id) ⊆ ss := List.filter_sublist.subset
        obtain ⟨hadds, hpending, hnew⟩ := adds_joins hopened.orderly hfresh hwindow
        refine ⟨hopened.trans hadds, fun x hx => ?_⟩
        by_cases hp : s.isPending x.id = true
        · obtain ⟨g, hg, hin⟩ := hjoined x hx hp
          refine ⟨g, ?_, hadds.before (hsame ▸ hin)⟩
          simp only
          split
          · exact hg
          · exact List.mem_append_left _ hg
        · obtain ⟨g, hg⟩ := isPending_iff.mp (hpending x (hin x hx hp))
          obtain rfl : g = group := by
            rcases hnew _ hg with hold | he
            · exact absurd (isPending_iff.mpr ⟨g, hsame ▸ hold⟩) hp
            · exact he
          refine ⟨g, ?_, hg⟩
          simp only
          split
          · rename_i hc
            exact List.contains_iff_mem.mp hc
          · exact List.mem_append_right _ (List.mem_singleton.mpr rfl)

/-! ### Settling -/

/-- Groups that have settled stay so, and all that a ticket waits for has settled well if the
ticket has. -/
theorem lookup_of_outcome? {ticket : Ticket} (h : s.outcome? ticket = some (.ok ())) :
    ∀ group ∈ ticket, s.outcomes.lookup group = some (.ok ()) := by
  induction ticket with
  | nil => exact fun _ h => absurd h List.not_mem_nil
  | cons group rest ih =>
      rw [outcome?] at h
      split at h
      · cases h
      · cases h
      · exact List.forall_mem_cons.mpr ⟨‹_›, ih h⟩

theorem lookup_append {α : Type} (l : List (Nat × α)) (q : Nat × α) (key : Nat) :
    (l ++ [q]).lookup key = (l.lookup key).or (if key = q.1 then some q.2 else none) := by
  rw [List.lookup_append, List.lookup_cons, List.lookup_nil]
  by_cases h : key = q.1
  · rw [if_pos h, beq_iff_eq.mpr h]
  · rw [if_neg h, beq_eq_false_iff_ne.mpr h]

theorem Orderly.settle (h : s.Orderly) {result : FetchResult} (hg : group < s.nextGroup) :
    (s.settle group result).Orderly where
  distinct := h.distinct.sublist (List.filter_sublist.map _)
  opened w hw := by
    obtain ⟨hw, hne⟩ := List.mem_filter.mp hw
    obtain ⟨hlt, hnone⟩ := h.opened w hw
    refine ⟨hlt, ?_⟩
    rw [Schedule.settle, lookup_append, hnone, if_neg (of_decide_eq_true hne)]
    rfl
  pending q hq := by
    obtain ⟨hq, hne⟩ := List.mem_filter.mp hq
    rw [Schedule.settle, lookup_append, h.pending q hq, if_neg (of_decide_eq_true hne)]
    rfl
  settled q hq := by
    rcases List.mem_append.mp hq with hq | hq
    · exact h.settled q hq
    · rw [List.mem_singleton.mp hq]
      exact hg

theorem Orderly.close (h : s.Orderly) (group : Nat) : (s.close group).2.Orderly where
  distinct := h.distinct.sublist (List.filter_sublist.map _)
  opened w hw := h.opened w (List.mem_of_mem_filter hw)
  pending := h.pending
  settled := h.settled

theorem Orderly.find? (h : s.Orderly) {w : Window} (hw : w ∈ s.windows) :
    s.windows.find? (·.group = w.group) = some w :=
  find?_of_mem h.distinct hw

end LazyGraph.Schedule
