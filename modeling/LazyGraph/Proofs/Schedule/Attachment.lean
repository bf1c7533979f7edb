import LazyGraph.Proofs.Schedule

/-!
What an addition does to a schedule: the selections that are not pending are attached to one open
window, each of them once.
-/
namespace LazyGraph.Schedule

/-! ### Attaching -/

variable {s t : Schedule} {group : Nat}

/-- A window once selections have joined the group. -/
def extend (group : Nat) (xs : List Selection) (w : Window) : Window :=
  if w.group = group then { w with selections := w.selections ++ xs } else w

@[simp] theorem extend_group (xs : List Selection) (w : Window) :
    (extend group xs w).group = w.group := by
  rw [extend]
  split <;> rfl

@[simp] theorem extend_key (xs : List Selection) (w : Window) :
    (extend group xs w).key = w.key := by
  rw [extend]
  split <;> rfl

theorem extend_selections (xs : List Selection) (w : Window) :
    (extend group xs w).selections =
      if w.group = group then w.selections ++ xs else w.selections := by
  rw [extend]
  split <;> rfl

theorem extend_nil (w : Window) : extend group [] w = w := by
  rw [extend, List.append_nil]
  split <;> rfl

theorem extend_of_ne {xs : List Selection} {w : Window} (hne : ∀ x ∈ xs, w.group ≠ group) :
    extend group xs w = w := by
  cases xs with
  | nil => exact extend_nil w
  | cons x xs => rw [extend, if_neg (hne x List.mem_cons_self)]

theorem extend_extend (xs ys : List Selection) (w : Window) :
    extend group ys (extend group xs w) = extend group (xs ++ ys) w := by
  by_cases hw : w.group = group
  · simp only [extend, hw, if_true, List.append_assoc]
  · simp only [extend, hw, if_false]

/-- Attaches selections to the open window of a group. -/
def attach (s : Schedule) (group : Nat) (xs : List Selection) : Schedule :=
  { s with
    pending := s.pending ++ xs.map fun x => (x.id, group)
    windows := s.windows.map (extend group xs) }

theorem attach_nil (s : Schedule) (group : Nat) : s.attach group [] = s := by
  have hsame : extend group [] = id := funext fun w => extend_nil w
  rw [attach, hsame, List.map_id, List.map_nil, List.append_nil]

theorem attach_attach (s : Schedule) (group : Nat) (xs ys : List Selection) :
    (s.attach group xs).attach group ys = s.attach group (xs ++ ys) := by
  have hboth : extend group ys ∘ extend group xs = extend group (xs ++ ys) :=
    funext fun w => extend_extend xs ys w
  simp only [attach, List.map_map, hboth, List.map_append, List.append_assoc]

theorem join_eq_attach {x : Selection} (hx : s.isPending x.id ≠ true) :
    join group s x = s.attach group [x] := by
  rw [join, if_neg hx]
  rfl

theorem isPending_attach {xs : List Selection} {id : Nat} :
    (s.attach group xs).isPending id = true ↔
      s.isPending id = true ∨ ∃ x ∈ xs, x.id = id := by
  simp only [isPending_iff, attach, List.mem_append, List.mem_map, Prod.mk.injEq]
  constructor
  · rintro ⟨g, hg | ⟨x, hx, rfl, _⟩⟩
    · exact .inl ⟨g, hg⟩
    · exact .inr ⟨x, hx, rfl⟩
  · rintro (⟨g, hg⟩ | ⟨x, hx, rfl⟩)
    · exact ⟨g, .inl hg⟩
    · exact ⟨group, .inr ⟨x, hx, rfl, rfl⟩⟩

/-- Selections of a list with which all of it is pending: each id once, and none that was. -/
structure Fills (s : Schedule) (fresh xs : List Selection) : Prop where
  subset : xs ⊆ fresh
  nodup : (xs.map (·.id)).Nodup
  idle : ∀ x ∈ xs, s.isPending x.id ≠ true
  all : ∀ y ∈ fresh, s.isPending y.id = true ∨ ∃ x ∈ xs, x.id = y.id

theorem Fills.skip {fresh xs : List Selection} {x : Selection} (h : Fills s fresh xs)
    (hx : s.isPending x.id = true) : Fills s (x :: fresh) xs where
  subset := List.subset_cons_of_subset x h.subset
  nodup := h.nodup
  idle := h.idle
  all := List.forall_mem_cons.mpr ⟨.inl hx, h.all⟩

theorem Fills.cons {fresh xs : List Selection} {x : Selection} (hx : s.isPending x.id ≠ true)
    (h : Fills (s.attach group [x]) fresh xs) : Fills s (x :: fresh) (x :: xs) where
  subset := List.cons_subset_cons x h.subset
  nodup := by
    refine List.nodup_cons.mpr ⟨fun hm => ?_, h.nodup⟩
    obtain ⟨y, hy, he⟩ := List.mem_map.mp hm
    exact h.idle y hy (isPending_attach.mpr (.inr ⟨x, List.mem_singleton.mpr rfl, he.symm⟩))
  idle := List.forall_mem_cons.mpr
    ⟨hx, fun y hy hp => h.idle y hy (isPending_attach.mpr (.inl hp))⟩
  all := by
    refine List.forall_mem_cons.mpr ⟨.inr ⟨x, List.mem_cons_self, rfl⟩, fun y hy => ?_⟩
    rcases h.all y hy with hp | ⟨z, hz, he⟩
    · refine (isPending_attach.mp hp).imp_right fun ⟨z, hz, he⟩ => ⟨x, List.mem_cons_self, ?_⟩
      rw [← List.mem_singleton.mp hz, he]
    · exact .inr ⟨z, List.mem_cons_of_mem x hz, he⟩

/-- Selections that join one after the other are attached together, but for repetitions. -/
theorem joins_eq_attach (s : Schedule) (group : Nat) (fresh : List Selection) :
    ∃ xs, Fills s fresh xs ∧ fresh.foldl (join group) s = s.attach group xs := by
  induction fresh generalizing s with
  | nil =>
      refine ⟨[], ⟨List.Subset.refl _, List.nodup_nil, ?_, ?_⟩, (attach_nil s group).symm⟩
      · exact fun x hx => absurd hx List.not_mem_nil
      · exact fun x hx => absurd hx List.not_mem_nil
  | cons x fresh ih =>
      rw [List.foldl_cons]
      by_cases hx : s.isPending x.id = true
      · obtain ⟨xs, hf, he⟩ := ih s
        rw [join, if_pos hx]
        exact ⟨xs, hf.skip hx, he⟩
      · obtain ⟨xs, hf, he⟩ := ih (s.attach group [x])
        rw [join_eq_attach hx, he, attach_attach]
        exact ⟨x :: xs, hf.cons hx, rfl⟩

/-! ### What an addition does -/

/-- The group of a selection is the one that it is pending with. -/
theorem groupOf?_eq_some_iff (hn : (s.pending.map (·.1)).Nodup) {id : Nat} :
    s.groupOf? id = some group ↔ (id, group) ∈ s.pending := lookup_eq_some_iff hn

/-- A schedule with a new window for a key. -/
def withWindow (s : Schedule) (key : BatchKey) : Schedule :=
  { s with
    nextGroup := s.nextGroup + 1
    windows := s.windows ++ [{ key, group := s.nextGroup, selections := [] }] }

theorem openWindow_cases (s : Schedule) (key : BatchKey) :
    (∃ w ∈ s.windows, w.key = key ∧ s.openWindow key = (w.group, s)) ∨
    ((∀ w ∈ s.windows, w.key ≠ key) ∧ s.openWindow key = (s.nextGroup, s.withWindow key)) := by
  cases hw : s.windows.find? (·.key = key) with
  | some w =>
      have hkey := List.find?_some hw
      refine .inl ⟨w, List.mem_of_find?_eq_some hw, of_decide_eq_true hkey, ?_⟩
      simp only [openWindow, hw]
  | none =>
      refine .inr ⟨fun w hm hk => List.find?_eq_none.mp hw w hm (decide_eq_true hk), ?_⟩
      simp only [openWindow, hw]
      rfl

/-- The groups that selections are pending with. -/
def joined (s : Schedule) (ss : List Selection) : List Nat :=
  (ss.filterMap fun x => s.groupOf? x.id).eraseDups

theorem mem_joined {ss : List Selection} :
    group ∈ s.joined ss ↔ ∃ x ∈ ss, s.groupOf? x.id = some group := by
  rw [joined, List.mem_eraseDups, List.mem_filterMap]

/-- The selections that are not pending. -/
def idle (s : Schedule) (ss : List Selection) : List Selection :=
  ss.filter fun x => !s.isPending x.id

theorem mem_idle {ss : List Selection} {x : Selection} :
    x ∈ s.idle ss ↔ x ∈ ss ∧ s.isPending x.id ≠ true := by
  rw [idle, List.mem_filter, Bool.not_eq_true', ne_eq, Bool.not_eq_true]

theorem add_of_pending {ss : List Selection} (key : BatchKey) (h : s.idle ss = []) :
    s.add ss key = (s.joined ss, s) := by
  rw [idle] at h
  simp only [add, h]
  rfl

theorem add_of_idle {ss : List Selection} (key : BatchKey) (h : s.idle ss ≠ []) :
    s.add ss key =
      (if (s.joined ss).contains (s.openWindow key).1 then s.joined ss
        else s.joined ss ++ [(s.openWindow key).1],
      (s.idle ss).foldl (join (s.openWindow key).1) (s.openWindow key).2) := by
  rw [add]
  split
  · contradiction
  · rfl

/-- Idle selections of a list are attached with all of it pending afterwards. -/
theorem idle_eq_attach {ss : List Selection} (h : s.idle ss ≠ [])
    (ht : t.pending = s.pending) (group : Nat) : ∃ xs, xs ≠ [] ∧ Fills t ss xs ∧
      (s.idle ss).foldl (join group) t = t.attach group xs := by
  have hsame : ∀ id, t.isPending id = s.isPending id := fun id => by
    rw [isPending, isPending, groupOf?, groupOf?, ht]
  obtain ⟨xs, hf, he⟩ := joins_eq_attach t group (s.idle ss)
  refine ⟨xs, ?_, ⟨fun x hx => (mem_idle.mp (hf.subset hx)).1, hf.nodup, hf.idle, fun x hx => ?_⟩, he⟩
  · rintro rfl
    obtain ⟨x, hx⟩ := List.exists_mem_of_ne_nil _ h
    rcases hf.all x hx with hp | ⟨y, hy, _⟩
    · exact (mem_idle.mp hx).2 (hsame x.id ▸ hp)
    · exact List.not_mem_nil hy
  · by_cases hp : s.isPending x.id = true
    · exact .inl ((hsame x.id).trans hp)
    · exact hf.all x (mem_idle.mpr ⟨hx, hp⟩)

/-- Either all selections are pending, and nothing changes, or the idle ones are attached to the
open window of the key, or to a new one. The ticket waits for the groups of all selections. -/
theorem add_cases (s : Schedule) (ss : List Selection) (key : BatchKey) :
    ((s.add ss key).2 = s ∧ (∀ x ∈ ss, s.isPending x.id = true) ∧
      ∀ g, g ∈ (s.add ss key).1 ↔ ∃ x ∈ ss, s.groupOf? x.id = some g) ∨
    ∃ t group xs, (s.add ss key).2 = t.attach group xs ∧ xs ≠ [] ∧ Fills t ss xs ∧
      ((t = s ∧ ∃ w ∈ s.windows, w.key = key ∧ w.group = group) ∨
        (t = s.withWindow key ∧ group = s.nextGroup ∧ ∀ w ∈ s.windows, w.key ≠ key)) ∧
      ∀ g, g ∈ (s.add ss key).1 ↔ (∃ x ∈ ss, s.groupOf? x.id = some g) ∨ g = group := by
  by_cases hidle : s.idle ss = []
  · rw [add_of_pending key hidle]
    refine .inl ⟨rfl, fun x hx => ?_, fun g => mem_joined⟩
    refine Decidable.byContradiction fun hp => ?_
    exact List.not_mem_nil (hidle ▸ mem_idle.mpr ⟨hx, hp⟩)
  · have hticket : ∀ group g, g ∈ (if (s.joined ss).contains group then s.joined ss
        else s.joined ss ++ [group]) ↔ (∃ x ∈ ss, s.groupOf? x.id = some g) ∨ g = group := by
      intro group g
      rw [← mem_joined]
      split
      · rename_i hc
        exact ⟨.inl, fun h => h.elim id fun e => e ▸ List.contains_iff_mem.mp hc⟩
      · rw [List.mem_append, List.mem_singleton]
    rw [add_of_idle key hidle]
    rcases s.openWindow_cases key with ⟨w, hw, hk, ho⟩ | ⟨hk, ho⟩
    · obtain ⟨xs, hn, hf, he⟩ := idle_eq_attach hidle (t := s) rfl w.group
      rw [ho]
      exact .inr ⟨s, w.group, xs, he, hn, hf, .inl ⟨rfl, w, hw, hk, rfl⟩, hticket w.group⟩
    · obtain ⟨xs, hn, hf, he⟩ := idle_eq_attach hidle (t := s.withWindow key) rfl s.nextGroup
      rw [ho]
      exact .inr ⟨_, _, xs, he, hn, hf, .inr ⟨rfl, rfl, hk⟩, hticket s.nextGroup⟩

/-- Selections that are added where nothing is open or pending get a window of their own. -/
theorem add_of_rest (hw : s.windows = []) (hp : s.pending = []) {ss : List Selection}
    (hne : ss ≠ []) (key : BatchKey) :
    ∃ xs ⊆ ss, xs ≠ [] ∧ s.add ss key = ([s.nextGroup],
      { s with
        nextGroup := s.nextGroup + 1
        windows := [{ key, group := s.nextGroup, selections := xs }]
        pending := xs.map fun x => (x.id, s.nextGroup) }) := by
  have hgroup : ∀ id, s.groupOf? id = none := fun id => by
    rw [groupOf?, hp]
    rfl
  have hidle : s.idle ss = ss :=
    List.filter_eq_self.mpr fun x _ => by rw [isPending, hgroup]; rfl
  have hjoined : s.joined ss = [] := by
    rw [joined, List.filterMap_eq_nil_iff.mpr fun x _ => hgroup x.id]
    rfl
  have hopen : s.openWindow key = (s.nextGroup, s.withWindow key) := by
    rcases s.openWindow_cases key with ⟨w, hmem, _⟩ | ⟨_, ho⟩
    · exact absurd (hw ▸ hmem) List.not_mem_nil
    · exact ho
  obtain ⟨xs, hxs, hf, he⟩ :=
    idle_eq_attach (s := s) (hidle.symm ▸ hne) (t := s.withWindow key) rfl s.nextGroup
  refine ⟨xs, hf.subset, hxs, ?_⟩
  rw [add_of_idle key (hidle.symm ▸ hne), hjoined, hopen, he, attach, withWindow, hw, hp]
  simp only [List.contains_nil, List.nil_append, List.map_cons, List.map_nil, extend, if_pos,
    Bool.false_eq_true, if_false]

end LazyGraph.Schedule
