import LazyGraph.Proofs.Schedule.Attachment

/-!
Runs of a schedule: selections are added, windows close and hand over what they collected, and
groups settle, in any order. This module tells what holds of the history of a run, and that
additions keep it.
-/
namespace LazyGraph.Schedule

/-! ### Histories -/

/-- A call that added selections. -/
structure Addition where
  selections : List Selection
  key : BatchKey
  ticket : Ticket
  /-- The ids of the selections with the groups that they were attached to. -/
  attached : List (Nat × Nat)

/-- A schedule with what has been asked of it and what it has done. -/
structure History where
  schedule : Schedule := {}
  /-- The groups for which a window was opened, with its key. -/
  opened : List (Nat × BatchKey) := []
  additions : List Addition := []
  /-- The windows whose selections were handed to the fetch callback. -/
  calls : List Window := []
  /-- The groups that have settled, with their results. -/
  settled : List (Nat × FetchResult) := []

/-- The windows of the second schedule whose groups have none in the first one. -/
def newWindows (s t : Schedule) : List Window :=
  t.windows.filter fun w => !s.windows.any (·.group = w.group)

namespace History

/-- The groups that were opened and have not settled. -/
def unsettled (h : History) : List Nat :=
  (h.opened.map (·.1)).filter fun group => !h.settled.any (·.1 = group)

/-- All selections that were ever attached to a group. -/
def attached (h : History) : List (Nat × Nat) := h.additions.flatMap (·.attached)

def add (h : History) (selections : List Selection) (key : BatchKey) : History :=
  let (ticket, schedule) := h.schedule.add selections key
  let attached := selections.filterMap fun x => (schedule.groupOf? x.id).map (x.id, ·)
  { h with
    schedule
    opened := h.opened ++ (newWindows h.schedule schedule).map fun w => (w.group, w.key)
    additions := h.additions ++ [{ selections, key, ticket, attached }] }

/-- The window of a group closes, if it is open. -/
def close (h : History) (group : Nat) : History :=
  match h.schedule.close group with
  | (some w, schedule) => { h with schedule, calls := h.calls ++ [w] }
  | (none, _) => h

def settle (h : History) (group : Nat) (result : FetchResult) : History :=
  { h with
    schedule := h.schedule.settle group result
    settled := h.settled ++ [(group, result)] }

end History

/-- The histories of all runs. A group that has not settled may settle at any time, also before its
window has closed: then its task was lost. -/
inductive Run : History → Prop
  | start : Run {}
  | add {h : History} (run : Run h) (selections : List Selection) (key : BatchKey) :
    Run (h.add selections key)
  | close {h : History} (run : Run h) (group : Nat) : Run (h.close group)
  | settle {h : History} (run : Run h) {group : Nat} (unsettled : group ∈ h.unsettled)
    (result : FetchResult) : Run (h.settle group result)

/-! ### What every run keeps -/

/-- A window has all selections that were attached to its group, each of them once, and they were
added under its key. -/
structure Gathers (h : History) (w : Window) : Prop where
  opened : (w.group, w.key) ∈ h.opened
  nodup : (w.selections.map (·.id)).Nodup
  attached : ∀ id, (∃ x ∈ w.selections, x.id = id) ↔ (id, w.group) ∈ h.attached
  added : ∀ x ∈ w.selections, ∃ a ∈ h.additions, a.key = w.key ∧ x ∈ a.selections

/-- What holds of a history, also between the opening of a window and its first selection. -/
structure Sound (h : History) : Prop where
  orderly : h.schedule.Orderly
  keys : (h.schedule.windows.map (·.key)).Nodup
  pending : (h.schedule.pending.map (·.1)).Nodup
  live : ∀ id group, (id, group) ∈ h.schedule.pending ↔
    (id, group) ∈ h.attached ∧ group ∈ h.unsettled
  known : ∀ q ∈ h.attached, ∃ key, (q.2, key) ∈ h.opened
  opened : (h.opened.map (·.1)).Nodup
  numbered : ∀ q ∈ h.opened, q.1 < h.schedule.nextGroup
  outcomes : h.schedule.outcomes = h.settled
  settled : (h.settled.map (·.1)).Nodup
  calls : (h.calls.map (·.group)).Nodup
  closed : ∀ w ∈ h.calls, ∀ v ∈ h.schedule.windows, v.group ≠ w.group
  gathers : ∀ w, w ∈ h.schedule.windows ∨ w ∈ h.calls → Gathers h w
  placed : ∀ a ∈ h.additions, ∀ x ∈ a.selections, ∃ group, (x.id, group) ∈ a.attached
  tickets : ∀ a ∈ h.additions, ∀ group, group ∈ a.ticket ↔ ∃ id, (id, group) ∈ a.attached

variable {h : History} {group : Nat}

theorem mem_unsettled : group ∈ h.unsettled ↔
    (∃ key, (group, key) ∈ h.opened) ∧ ∀ result, (group, result) ∉ h.settled := by
  simp only [History.unsettled, List.mem_filter, List.mem_map, Bool.not_eq_true',
    List.any_eq_false, decide_eq_true_eq, Prod.exists, exists_and_right, exists_eq_right]
  refine and_congr_right fun _ => ⟨fun hn result hr => hn _ hr rfl, fun hn q hq e => ?_⟩
  exact hn q.2 (e ▸ hq)

theorem Sound.start : Sound {} where
  orderly := .empty
  keys := List.nodup_nil
  pending := List.nodup_nil
  live id group := by simp [History.attached]
  known _ hq := absurd hq List.not_mem_nil
  opened := List.nodup_nil
  numbered _ hq := absurd hq List.not_mem_nil
  outcomes := rfl
  settled := List.nodup_nil
  calls := List.nodup_nil
  closed _ hw := absurd hw List.not_mem_nil
  gathers _ hw := hw.elim (absurd · List.not_mem_nil) (absurd · List.not_mem_nil)
  placed _ ha := absurd ha List.not_mem_nil
  tickets _ ha := absurd ha List.not_mem_nil

/-- The group of an open window has not settled. -/
theorem Sound.unsettled_of_open (sound : Sound h) {w : Window} (hw : w ∈ h.schedule.windows) :
    w.group ∈ h.unsettled := by
  refine mem_unsettled.mpr ⟨⟨w.key, (sound.gathers w (.inl hw)).opened⟩, fun result hr => ?_⟩
  have hnone := (sound.orderly.opened w hw).2
  rw [sound.outcomes] at hnone
  exact not_mem_of_lookup hnone hr

/-! ### Windows that open -/

/-- A history once a window was opened for a key. -/
def History.withWindow (h : History) (key : BatchKey) : History :=
  { h with
    schedule := h.schedule.withWindow key
    opened := h.opened ++ [(h.schedule.nextGroup, key)] }

theorem orderly_withWindow {s : Schedule} (ho : s.Orderly) {key : BatchKey}
    (hk : ∀ w ∈ s.windows, w.key ≠ key) : (s.withWindow key).Orderly := by
  have horderly := (adds_openWindow ho [] key).1.orderly
  rcases s.openWindow_cases key with ⟨w, hw, he, _⟩ | ⟨_, he⟩
  · exact absurd he (hk w hw)
  · rwa [he] at horderly

theorem Sound.withWindow (sound : Sound h) {key : BatchKey}
    (hk : ∀ w ∈ h.schedule.windows, w.key ≠ key) : Sound (h.withWindow key) := by
  have hfresh : ∀ q ∈ h.opened, q.1 ≠ h.schedule.nextGroup := fun q hq =>
    Nat.ne_of_lt (sound.numbered q hq)
  have hnone : ∀ id, (id, h.schedule.nextGroup) ∉ h.attached := fun id hid => by
    obtain ⟨key, hkey⟩ := sound.known _ hid
    exact hfresh _ hkey rfl
  have hgathers : ∀ w, Gathers h w → Gathers (h.withWindow key) w := fun w hw =>
    ⟨List.mem_append_left _ hw.opened, hw.nodup, hw.attached, hw.added⟩
  have hwindows : ∀ w ∈ (h.withWindow key).schedule.windows, w ∈ h.schedule.windows ∨
      w = { key, group := h.schedule.nextGroup, selections := [] } := fun w hw =>
    (List.mem_append.mp hw).imp_right List.mem_singleton.mp
  exact { sound with
    orderly := orderly_withWindow sound.orderly hk
    keys := nodup_map_concat sound.keys hk
    live := by
      refine fun id group => (sound.live id group).trans (and_congr_right fun ha => ?_)
      rw [mem_unsettled, mem_unsettled]
      refine and_congr_left fun _ => exists_congr fun key' => ?_
      refine ⟨List.mem_append_left _, fun hm => (List.mem_append.mp hm).resolve_right fun hm => ?_⟩
      cases List.mem_singleton.mp hm
      exact hnone id ha
    known := by
      intro q hq
      obtain ⟨key', hkey⟩ := sound.known q hq
      exact ⟨key', List.mem_append_left _ hkey⟩
    opened := nodup_map_concat sound.opened hfresh
    numbered := by
      intro q hq
      rcases List.mem_append.mp hq with hq | hq
      · exact Nat.lt_succ_of_lt (sound.numbered q hq)
      · rw [List.mem_singleton.mp hq]
        exact Nat.lt_succ_self _
    closed := by
      intro w hw v hv
      rcases hwindows v hv with hv | rfl
      · exact sound.closed w hw v hv
      · exact (hfresh _ (sound.gathers w (.inr hw)).opened).symm
    gathers := by
      rintro w (hw | hw)
      · rcases hwindows w hw with hw | rfl
        · exact hgathers w (sound.gathers w (.inl hw))
        · refine ⟨List.mem_append_right _ List.mem_cons_self, List.nodup_nil, fun id => ?_, ?_⟩
          · exact ⟨fun ⟨x, hx, _⟩ => absurd hx List.not_mem_nil, fun hm => absurd hm (hnone id)⟩
          · exact fun x hx => absurd hx List.not_mem_nil
      · exact hgathers w (sound.gathers w (.inr hw)) }

/-! ### Selections that are attached -/

/-- A history once selections were attached to a group. -/
def History.attach (h : History) (group : Nat) (xs : List Selection) (a : Addition) : History :=
  { h with schedule := h.schedule.attach group xs, additions := h.additions ++ [a] }

theorem attached_attach {xs : List Selection} {a : Addition} {q : Nat × Nat} :
    q ∈ (h.attach group xs a).attached ↔ q ∈ h.attached ∨ q ∈ a.attached := by
  simp only [History.attached, History.attach, List.flatMap_append, List.mem_append,
    List.flatMap_cons, List.flatMap_nil, List.append_nil]

theorem mem_pending_attach {s : Schedule} {xs : List Selection} {q : Nat × Nat} :
    q ∈ (s.attach group xs).pending ↔
      q ∈ s.pending ∨ ((∃ x ∈ xs, x.id = q.1) ∧ q.2 = group) := by
  simp only [Schedule.attach, List.mem_append, List.mem_map, Prod.ext_iff]
  refine or_congr_right ⟨?_, ?_⟩
  · rintro ⟨x, hx, hid, hg⟩
    exact ⟨⟨x, hx, hid⟩, hg.symm⟩
  · rintro ⟨⟨x, hx, hid⟩, hg⟩
    exact ⟨x, hx, hid, hg.symm⟩

theorem orderly_attach {s : Schedule} (ho : s.Orderly) {xs : List Selection}
    (hg : ∀ x ∈ xs, ∃ w ∈ s.windows, w.group = group) : (s.attach group xs).Orderly := by
  refine ⟨?_, fun w hw => ?_, fun q hq => ?_, ho.settled⟩
  · have hmap : (s.windows.map (extend group xs)).map (·.group) = s.windows.map (·.group) := by
      rw [List.map_map]
      exact List.map_congr_left fun w _ => extend_group xs w
    exact hmap ▸ ho.distinct
  · obtain ⟨v, hv, rfl⟩ := List.mem_map.mp hw
    rw [extend_group]
    exact ho.opened v hv
  · rcases mem_pending_attach.mp hq with hq | ⟨⟨x, hx, _⟩, he⟩
    · exact ho.pending q hq
    · obtain ⟨w, hw, hwg⟩ := hg x hx
      rw [he, ← hwg]
      exact (ho.opened w hw).2

theorem nodup_pending_attach {s : Schedule} {ss xs : List Selection}
    (hn : (s.pending.map (·.1)).Nodup) (fills : Fills s ss xs) :
    ((s.attach group xs).pending.map (·.1)).Nodup := by
  simp only [Schedule.attach, List.map_append, List.map_map, List.nodup_append]
  refine ⟨hn, fills.nodup, fun a ha b hb e => ?_⟩
  obtain ⟨q, hq, rfl⟩ := List.mem_map.mp ha
  obtain ⟨x, hx, rfl⟩ := List.mem_map.mp hb
  refine fills.idle x hx (isPending_iff.mpr ⟨q.2, ?_⟩)
  simp only [Function.comp_apply] at e
  exact e ▸ hq

section Attach

variable {ss xs : List Selection} {key : BatchKey} {a : Addition}

/-- What an addition is to tell: its selections and their groups, for all of which it waits. -/
structure Addition.Tells (a : Addition) (t : Schedule) (ss : List Selection) (key : BatchKey) :
    Prop where
  selections : a.selections = ss
  key : a.key = key
  attached : ∀ q, q ∈ a.attached ↔ (∃ x ∈ ss, x.id = q.1) ∧ q ∈ t.pending
  ticket : ∀ group, group ∈ a.ticket ↔ ∃ id, (id, group) ∈ a.attached

/-- Windows of other groups have what was attached to theirs. -/
theorem Gathers.attach_of_ne (sound : Sound h)
    (tells : a.Tells (h.schedule.attach group xs) ss key) {w : Window} (hw : Gathers h w)
    (hne : ∀ x ∈ xs, w.group ≠ group) : Gathers (h.attach group xs a) w := by
  refine ⟨hw.opened, hw.nodup, fun id => ?_, fun x hx => ?_⟩
  · rw [attached_attach, hw.attached, tells.attached, mem_pending_attach]
    refine ⟨.inl, fun hm => hm.elim (fun ha => ha) ?_⟩
    rintro ⟨_, hq | ⟨⟨x, hx, _⟩, he⟩⟩
    · exact ((sound.live _ _).mp hq).1
    · exact absurd he (hne x hx)
  · obtain ⟨b, hb, hx⟩ := hw.added x hx
    exact ⟨b, List.mem_append_left _ hb, hx⟩

/-- The window of the group has the selections that are attached to it now. -/
theorem Gathers.attach_self (sound : Sound h) (fills : Fills h.schedule ss xs) {w : Window}
    (hw : w ∈ h.schedule.windows) (tells : a.Tells (h.schedule.attach w.group xs) ss w.key) :
    Gathers (h.attach w.group xs a) (extend w.group xs w) := by
  have hg := sound.gathers w (.inl hw)
  have hlive := sound.unsettled_of_open hw
  have hselections : (extend w.group xs w).selections = w.selections ++ xs := by
    rw [extend_selections, if_pos rfl]
  refine ⟨?_, ?_, fun id => ?_, fun x hx => ?_⟩
  · rw [extend_group, extend_key]
    exact hg.opened
  · rw [hselections, List.map_append, List.nodup_append]
    refine ⟨hg.nodup, fills.nodup, fun b hb c hc e => ?_⟩
    obtain ⟨y, hy, rfl⟩ := List.mem_map.mp hb
    obtain ⟨x, hx, rfl⟩ := List.mem_map.mp hc
    have hpending := (sound.live _ _).mpr ⟨(hg.attached y.id).mp ⟨y, hy, rfl⟩, hlive⟩
    exact fills.idle x hx (isPending_iff.mpr ⟨w.group, e ▸ hpending⟩)
  · rw [hselections, extend_group, attached_attach, tells.attached, mem_pending_attach]
    simp only [List.mem_append, or_and_right, exists_or, hg.attached]
    refine ⟨Or.imp_right fun hx => ⟨?_, .inr ⟨hx, trivial⟩⟩, fun hm => hm.elim .inl ?_⟩
    · obtain ⟨x, hx, hid⟩ := hx
      exact ⟨x, fills.subset hx, hid⟩
    · rintro ⟨_, hq | ⟨hx, _⟩⟩
      · exact .inl ((sound.live _ _).mp hq).1
      · exact .inr hx
  · rw [hselections] at hx
    rw [extend_key]
    rcases List.mem_append.mp hx with hx | hx
    · obtain ⟨b, hb, hk, hx⟩ := hg.added x hx
      exact ⟨b, List.mem_append_left _ hb, hk, hx⟩
    · refine ⟨a, List.mem_append_right _ (List.mem_singleton.mpr rfl), tells.key, ?_⟩
      rw [tells.selections]
      exact fills.subset hx

section Open

variable (sound : Sound h) (fills : Fills h.schedule ss xs)
  (isOpen : ∀ x ∈ xs, ∃ w ∈ h.schedule.windows, w.key = key ∧ w.group = group)
  (tells : a.Tells (h.schedule.attach group xs) ss key)

include sound fills isOpen tells

theorem Sound.gathers_attach {w : Window}
    (hw : w ∈ (h.attach group xs a).schedule.windows ∨ w ∈ h.calls) :
    Gathers (h.attach group xs a) w := by
  rcases hw with hw | hw
  · obtain ⟨v, hv, rfl⟩ := List.mem_map.mp hw
    by_cases hx : ∃ x ∈ xs, v.group = group
    · obtain ⟨x, hx, rfl⟩ := hx
      obtain ⟨u, hu, rfl, hug⟩ := isOpen x hx
      obtain rfl := List.inj_on_of_nodup_map sound.orderly.distinct hu hv hug
      exact .attach_self sound fills hv tells
    · have hne : ∀ x ∈ xs, v.group ≠ group := fun x hm he => hx ⟨x, hm, he⟩
      rw [extend_of_ne hne]
      exact (sound.gathers v (.inl hv)).attach_of_ne sound tells hne
  · refine (sound.gathers w (.inr hw)).attach_of_ne sound tells fun x hx he => ?_
    obtain ⟨u, hu, _, hug⟩ := isOpen x hx
    exact sound.closed w hw u hu (hug.trans he.symm)

/-- Selections go to the open window of the key. -/
theorem Sound.attach : Sound (h.attach group xs a) := by
  have hgroup : ∀ {x}, x ∈ xs → (group, key) ∈ h.opened ∧ group ∈ h.unsettled := by
    intro x hx
    obtain ⟨w, hw, rfl, rfl⟩ := isOpen x hx
    exact ⟨(sound.gathers w (.inl hw)).opened, sound.unsettled_of_open hw⟩
  exact { sound with
    orderly := by
      refine orderly_attach sound.orderly fun x hx => ?_
      obtain ⟨w, hw, _, he⟩ := isOpen x hx
      exact ⟨w, hw, he⟩
    keys := by
      have hmap : (h.schedule.windows.map (extend group xs)).map (·.key) =
          h.schedule.windows.map (·.key) := by
        rw [List.map_map]
        exact List.map_congr_left fun w _ => extend_key xs w
      exact hmap ▸ sound.keys
    pending := nodup_pending_attach sound.pending fills
    live := by
      intro id g
      rw [attached_attach, tells.attached]
      constructor
      · intro hq
        rcases mem_pending_attach.mp hq with hold | ⟨⟨x, hx, hid⟩, rfl⟩
        · exact ((sound.live id g).mp hold).imp_left .inl
        · exact ⟨.inr ⟨⟨x, fills.subset hx, hid⟩, hq⟩, (hgroup hx).2⟩
      · rintro ⟨hq | ⟨_, hq⟩, hu⟩
        · exact mem_pending_attach.mpr (.inl ((sound.live id g).mpr ⟨hq, hu⟩))
        · exact hq
    known := by
      intro q hq
      rw [attached_attach, tells.attached] at hq
      rcases hq with hq | ⟨_, hq⟩
      · exact sound.known q hq
      · rcases mem_pending_attach.mp hq with hq | ⟨⟨x, hx, _⟩, he⟩
        · exact sound.known q ((sound.live _ _).mp hq).1
        · exact ⟨key, he ▸ (hgroup hx).1⟩
    closed := by
      intro w hw v hv
      obtain ⟨v', hv', rfl⟩ := List.mem_map.mp hv
      rw [extend_group]
      exact sound.closed w hw v' hv'
    gathers := fun w hw => sound.gathers_attach fills isOpen tells hw
    placed := by
      intro b hb
      rcases List.mem_append.mp hb with hb | hb
      · exact sound.placed b hb
      · rw [List.mem_singleton.mp hb, tells.selections]
        intro x hx
        obtain ⟨g, hg⟩ := isPending_iff.mp (isPending_attach.mpr (fills.all x hx))
        exact ⟨g, (tells.attached _).mpr ⟨⟨x, hx, rfl⟩, hg⟩⟩
    tickets := by
      intro b hb
      rcases List.mem_append.mp hb with hb | hb
      · exact sound.tickets b hb
      · rw [List.mem_singleton.mp hb]
        exact tells.ticket }

end Open

end Attach

/-! ### Additions -/

/-- What an addition tells of itself. -/
def addition (s : Schedule) (ss : List Selection) (key : BatchKey) : Addition where
  selections := ss
  key
  ticket := (s.add ss key).1
  attached := ss.filterMap fun x => ((s.add ss key).2.groupOf? x.id).map (x.id, ·)

/-- Where each selection is pending afterwards, and the ticket waits for the groups of those that
were pending before and of those attached, an addition tells what it is to tell. -/
theorem addition_tells {s : Schedule} {ss : List Selection} {key : BatchKey}
    (hn : ((s.add ss key).2.pending.map (·.1)).Nodup)
    (hticket : ∀ group, group ∈ (s.add ss key).1 ↔
      ∃ x ∈ ss, (x.id, group) ∈ (s.add ss key).2.pending) :
    (s.addition ss key).Tells (s.add ss key).2 ss key := by
  have hattached : ∀ q, q ∈ (s.addition ss key).attached ↔
      (∃ x ∈ ss, x.id = q.1) ∧ q ∈ (s.add ss key).2.pending := by
    intro q
    rw [addition, List.mem_filterMap]
    constructor
    · rintro ⟨x, hx, hq⟩
      obtain ⟨group, hg, rfl⟩ := Option.map_eq_some_iff.mp hq
      exact ⟨⟨x, hx, rfl⟩, (groupOf?_eq_some_iff hn).mp hg⟩
    · rintro ⟨⟨x, hx, hid⟩, hq⟩
      refine ⟨x, hx, Option.map_eq_some_iff.mpr ⟨q.2, (groupOf?_eq_some_iff hn).mpr ?_, ?_⟩⟩
      · rw [hid]
        exact hq
      · rw [hid]
  refine ⟨rfl, rfl, hattached, fun group => (hticket group).trans ?_⟩
  constructor
  · rintro ⟨x, hx, hq⟩
    exact ⟨x.id, (hattached _).mpr ⟨⟨x, hx, rfl⟩, hq⟩⟩
  · rintro ⟨id, hq⟩
    obtain ⟨⟨x, hx, hid⟩, hq⟩ := (hattached _).mp hq
    exact ⟨x, hx, hid ▸ hq⟩

theorem newWindows_self {s t : Schedule} (ht : ∀ w ∈ t.windows, ∃ v ∈ s.windows, v.group = w.group) :
    newWindows s t = [] := by
  refine List.filter_eq_nil_iff.mpr fun w hw => ?_
  obtain ⟨v, hv, he⟩ := ht w hw
  simp only [Bool.not_eq_true', Bool.not_eq_false, List.any_eq_true, decide_eq_true_eq]
  exact ⟨v, hv, he⟩

theorem newWindows_withWindow {s : Schedule} (ho : s.Orderly) (key : BatchKey)
    (xs : List Selection) :
    (newWindows s ((s.withWindow key).attach group xs)).map (fun w => (w.group, w.key)) =
      [(s.nextGroup, key)] := by
  have hold : newWindows s (s.attach group xs) = [] := newWindows_self fun w hw => by
    obtain ⟨v, hv, rfl⟩ := List.mem_map.mp hw
    exact ⟨v, hv, (extend_group xs v).symm⟩
  have hnone : s.windows.any (·.group = s.nextGroup) = false := by
    rw [List.any_eq_false]
    exact fun w hw he => Nat.ne_of_lt (ho.opened w hw).1 (of_decide_eq_true he)
  simp only [newWindows, Schedule.attach, Schedule.withWindow, List.map_append, List.filter_append,
    List.map_cons, List.map_nil] at hold ⊢
  rw [hold, List.filter_cons_of_pos]
  · simp only [List.filter_nil, List.nil_append, List.map_cons, List.map_nil, extend_group,
      extend_key]
  · simp only [extend_group, hnone, Bool.not_false]

/-- How an addition goes: a window is opened for its key if there is none and one is needed, and
then selections are attached to the open one. -/
structure Attaches (h k : History) (ss xs : List Selection) (key : BatchKey) (group : Nat) :
    Prop where
  sound : Sound k
  add_eq : h.add ss key = k.attach group xs (h.schedule.addition ss key)
  fills : Fills k.schedule ss xs
  isOpen : ∀ x ∈ xs, ∃ w ∈ k.schedule.windows, w.key = key ∧ w.group = group
  pending : k.schedule.pending = h.schedule.pending
  unsettled : ∀ g ∈ k.unsettled, g ∈ h.unsettled ∨ xs ≠ [] ∧ g = group
  ticket : ∀ g, g ∈ (h.schedule.add ss key).1 ↔
    (∃ x ∈ ss, h.schedule.groupOf? x.id = some g) ∨ xs ≠ [] ∧ g = group

theorem unsettled_withWindow {key : BatchKey} {g : Nat} (hg : g ∈ (h.withWindow key).unsettled) :
    g ∈ h.unsettled ∨ g = h.schedule.nextGroup := by
  obtain ⟨⟨key', hopened⟩, hnone⟩ := mem_unsettled.mp hg
  rcases List.mem_append.mp hopened with hopened | hopened
  · exact .inl (mem_unsettled.mpr ⟨⟨key', hopened⟩, hnone⟩)
  · cases List.mem_singleton.mp hopened
    exact .inr rfl

theorem Sound.attaches (sound : Sound h) (ss : List Selection) (key : BatchKey) :
    ∃ k xs group, Attaches h k ss xs key group := by
  have hadd : ∀ t, (h.schedule.add ss key).2 = t → h.add ss key =
      { h with
        schedule := t
        opened := h.opened ++ (newWindows h.schedule t).map fun w => (w.group, w.key)
        additions := h.additions ++ [h.schedule.addition ss key] } := by
    rintro t rfl
    rfl
  rcases h.schedule.add_cases ss key with
    ⟨hsame, hall, hticket⟩ | ⟨t, group, xs, hattach, hn, fills, hopen, hticket⟩
  · refine ⟨h, [], 0, sound, ?_, ⟨?_, List.nodup_nil, ?_, fun y hy => .inl (hall y hy)⟩, ?_, rfl,
      fun g hg => .inl hg, fun g => (hticket g).trans ⟨.inl, fun hg => hg.elim id ?_⟩⟩
    · rw [hadd _ hsame, newWindows_self fun w hw => ⟨w, hw, rfl⟩, History.attach, attach_nil,
        List.map_nil, List.append_nil]
    · exact List.nil_subset _
    · exact fun x hx => absurd hx List.not_mem_nil
    · exact fun x hx => absurd hx List.not_mem_nil
    · exact fun hg => absurd rfl hg.1
  · have hiff : ∀ g, g ∈ (h.schedule.add ss key).1 ↔
        (∃ x ∈ ss, h.schedule.groupOf? x.id = some g) ∨ xs ≠ [] ∧ g = group := fun g => by
      rw [hticket g, and_iff_right hn]
    rcases hopen with ⟨rfl, w, hw, hk, hg⟩ | ⟨rfl, rfl, hk⟩
    · refine ⟨h, xs, group, sound, ?_, fills, fun _ _ => ⟨w, hw, hk, hg⟩, rfl, fun g hg => .inl hg,
        hiff⟩
      rw [hadd _ hattach, newWindows_self, History.attach, List.map_nil, List.append_nil]
      intro v hv
      obtain ⟨u, hu, rfl⟩ := List.mem_map.mp hv
      exact ⟨u, hu, (extend_group xs u).symm⟩
    · refine ⟨h.withWindow key, xs, _, sound.withWindow hk, ?_, fills, fun _ _ => ⟨_,
        List.mem_append_right _ (List.mem_singleton.mpr rfl), rfl, rfl⟩, rfl,
        fun g hg => (unsettled_withWindow hg).imp_right (And.intro hn), hiff⟩
      rw [hadd _ hattach, newWindows_withWindow sound.orderly]
      rfl

theorem Sound.add (sound : Sound h) (ss : List Selection) (key : BatchKey) :
    Sound (h.add ss key) := by
  obtain ⟨k, xs, group, hk⟩ := sound.attaches ss key
  have hschedule : (h.schedule.add ss key).2 = k.schedule.attach group xs :=
    congrArg History.schedule hk.add_eq
  rw [hk.add_eq]
  refine hk.sound.attach hk.fills hk.isOpen ?_
  rw [← hschedule]
  refine addition_tells ?_ fun g => (hk.ticket g).trans ?_
  · rw [hschedule]
    exact nodup_pending_attach hk.sound.pending hk.fills
  · rw [hschedule]
    simp only [mem_pending_attach, hk.pending, groupOf?_eq_some_iff sound.pending]
    constructor
    · rintro (⟨x, hx, hq⟩ | ⟨hn, rfl⟩)
      · exact ⟨x, hx, .inl hq⟩
      · obtain ⟨x, hx⟩ := List.exists_mem_of_ne_nil _ hn
        exact ⟨x, hk.fills.subset hx, .inr ⟨⟨x, hx, rfl⟩, rfl⟩⟩
    · rintro ⟨x, hx, hq | ⟨⟨y, hy, _⟩, rfl⟩⟩
      · exact .inl ⟨x, hx, hq⟩
      · exact .inr ⟨List.ne_nil_of_mem hy, rfl⟩

end LazyGraph.Schedule
