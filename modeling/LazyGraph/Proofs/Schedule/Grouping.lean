import LazyGraph.Proofs.Schedule.History

/-!
Grouping: in every run a group gets what was attached to it and nothing else, once, and a ticket
ends well exactly if all groups of its selections do.
-/
namespace LazyGraph.Schedule

variable {h : History} {group : Nat}

/-! ### Closing and settling -/

theorem Gathers.congr {k : History} {w : Window} (hw : Gathers h w) (ho : k.opened = h.opened)
    (ha : k.additions = h.additions) : Gathers k w := by
  have hattached : k.attached = h.attached := by
    rw [History.attached, History.attached, ha]
  exact ⟨ho ▸ hw.opened, hw.nodup, hattached ▸ hw.attached, ha ▸ hw.added⟩

theorem Sound.close (sound : Sound h) (group : Nat) : Sound (h.close group) := by
  rw [History.close]
  split
  · rename_i w t hclose
    obtain ⟨hfind, rfl⟩ := Prod.mk.inj hclose
    have hw := List.mem_of_find?_eq_some hfind
    have hgroup := List.find?_some hfind
    rw [decide_eq_true_eq] at hgroup
    have hleft : ∀ v ∈ h.schedule.windows.filter (·.group ≠ group), v ∈ h.schedule.windows ∧
        v.group ≠ group := fun v hv =>
      ⟨List.mem_of_mem_filter hv, of_decide_eq_true (List.mem_filter.mp hv).2⟩
    have hcalls : ∀ v ∈ h.calls ++ [w], v ∈ h.calls ∨ v = w := fun v hv =>
      (List.mem_append.mp hv).imp_right List.mem_singleton.mp
    exact { sound with
      orderly := sound.orderly.close group
      keys := sound.keys.sublist (List.filter_sublist.map _)
      calls := nodup_map_concat sound.calls fun v hv => (sound.closed v hv w hw).symm
      closed := by
        intro u hu v hv
        rcases hcalls u hu with hu | rfl
        · exact sound.closed u hu v (hleft v hv).1
        · exact fun e => (hleft v hv).2 (e.trans hgroup)
      gathers := by
        rintro v (hv | hv)
        · exact (sound.gathers v (.inl (hleft v hv).1)).congr rfl rfl
        · rcases hcalls v hv with hv | rfl
          · exact (sound.gathers v (.inr hv)).congr rfl rfl
          · exact (sound.gathers v (.inl hw)).congr rfl rfl }
  · exact sound

theorem mem_unsettled_settle {result : FetchResult} {g : Nat} :
    g ∈ (h.settle group result).unsettled ↔ g ∈ h.unsettled ∧ g ≠ group := by
  simp only [mem_unsettled, History.settle, List.mem_append, List.mem_singleton, not_or, and_assoc]
  refine and_congr_right fun _ => ⟨fun hn => ⟨fun r => (hn r).1, ?_⟩, fun hn r => ⟨hn.1 r, ?_⟩⟩
  · rintro rfl
    exact (hn result).2 rfl
  · exact fun e => hn.2 (Prod.mk.inj e).1

theorem Sound.settle (sound : Sound h) (hg : group ∈ h.unsettled) (result : FetchResult) :
    Sound (h.settle group result) := by
  obtain ⟨⟨key, hkey⟩, hnone⟩ := mem_unsettled.mp hg
  have hleft : ∀ v ∈ h.schedule.windows.filter (·.group ≠ group), v ∈ h.schedule.windows :=
    fun v hv => List.mem_of_mem_filter hv
  exact { sound with
    orderly := sound.orderly.settle (sound.numbered _ hkey)
    keys := sound.keys.sublist (List.filter_sublist.map _)
    pending := sound.pending.sublist (List.filter_sublist.map _)
    live := by
      intro id g
      rw [mem_unsettled_settle, ← and_assoc]
      refine Iff.trans ?_ (and_congr_left fun _ => sound.live id g)
      simp only [History.settle, Schedule.settle, List.mem_filter, decide_eq_true_eq]
    outcomes := by simp only [History.settle, Schedule.settle, sound.outcomes]
    settled := nodup_map_concat sound.settled fun q hq (e : q.1 = group) => hnone q.2 (e ▸ hq)
    closed := fun u hu v hv => sound.closed u hu v (hleft v hv)
    gathers := by
      rintro v (hv | hv)
      · exact (sound.gathers v (.inl (hleft v hv))).congr rfl rfl
      · exact (sound.gathers v (.inr hv)).congr rfl rfl }

theorem Run.sound (run : Run h) : Sound h := by
  induction run with
  | start => exact .start
  | add run selections key ih => exact ih.add selections key
  | close run group ih => exact ih.close group
  | settle run unsettled result ih => exact ih.settle unsettled result

/-! ### The number of unsettled groups -/

/-- Each unsettled group has a pending selection: none is opened without one. -/
theorem Run.exists_pending (run : Run h) : ∀ g ∈ h.unsettled, ∃ id, (id, g) ∈ h.schedule.pending := by
  induction run with
  | start => exact fun g hg => absurd hg List.not_mem_nil
  | @add h run selections key ih =>
      obtain ⟨k, xs, group, hk⟩ := run.sound.attaches selections key
      rw [hk.add_eq]
      intro g hg
      rcases hk.unsettled g hg with hg | ⟨hn, rfl⟩
      · obtain ⟨id, hid⟩ := ih g hg
        exact ⟨id, mem_pending_attach.mpr (.inl (hk.pending ▸ hid))⟩
      · obtain ⟨x, hx⟩ := List.exists_mem_of_ne_nil _ hn
        exact ⟨x.id, mem_pending_attach.mpr (.inr ⟨⟨x, hx, rfl⟩, rfl⟩)⟩
  | @close h run group ih =>
      rw [History.close]
      split
      · rename_i w t hclose
        obtain ⟨_, rfl⟩ := Prod.mk.inj hclose
        exact ih
      · exact ih
  | @settle h run group unsettled result ih =>
      intro g hg
      obtain ⟨hg, hne⟩ := mem_unsettled_settle.mp hg
      obtain ⟨id, hid⟩ := ih g hg
      exact ⟨id, List.mem_filter.mpr ⟨hid, decide_eq_true hne⟩⟩

theorem nodup_eraseDups {α : Type} [BEq α] [LawfulBEq α] (l : List α) : l.eraseDups.Nodup := by
  induction hn : l.length using Nat.strongRecOn generalizing l with
  | ind n ih =>
      cases l with
      | nil => exact List.nodup_nil
      | cons a l =>
          rw [List.eraseDups_cons]
          refine List.nodup_cons.mpr ⟨fun hm => ?_, ih _ ?_ _ rfl⟩
          · have hne := (List.mem_filter.mp (List.mem_eraseDups.mp hm)).2
            simp at hne
          · rw [← hn]
            exact Nat.lt_succ_of_le (List.length_filter_le _ l)

theorem Run.pendingCount_eq (run : Run h) : h.schedule.pendingCount = h.unsettled.length := by
  have sound := run.sound
  have hnodup : h.unsettled.Nodup := sound.opened.filter _
  refine (List.perm_ext_iff_of_nodup (nodup_eraseDups _) hnodup |>.mpr fun g => ?_).length_eq
  rw [List.mem_eraseDups, List.mem_map]
  constructor
  · rintro ⟨q, hq, rfl⟩
    exact ((sound.live q.1 q.2).mp hq).2
  · intro hg
    obtain ⟨id, hid⟩ := run.exists_pending g hg
    exact ⟨_, hid, rfl⟩

/-! ### Grouping -/

/-- A ticket ends well exactly if all of its groups have settled well. -/
theorem outcome?_eq_ok_iff {s : Schedule} (hn : (s.outcomes.map (·.1)).Nodup) {ticket : Ticket} :
    s.outcome? ticket = some (.ok ()) ↔ ∀ g ∈ ticket, (g, .ok ()) ∈ s.outcomes := by
  constructor
  · exact fun h g hg => mem_of_lookup (lookup_of_outcome? h g hg)
  · intro h
    induction ticket with
    | nil => rfl
    | cons g rest ih =>
        obtain ⟨hg, hrest⟩ := List.forall_mem_cons.mp h
        simp only [outcome?, (lookup_eq_some_iff hn).mpr hg]
        exact ih hrest

/-- In every run: a selection is pending with the one unsettled group that it is attached to. Each
group is handed over at most once, with exactly the selections that are ever attached to it, each
once, all of them added under its own key. Settling a group, well or not, detaches its selections
and no others. As many groups are pending as were opened and have not settled. A ticket ends well
exactly if each group that its selections were attached to has settled, and well. -/
theorem grouping_sound (run : Run h) :
    (∀ id group, h.schedule.groupOf? id = some group ↔
      (id, group) ∈ h.attached ∧ group ∈ h.unsettled) ∧
    (h.calls.map (·.group)).Nodup ∧
    (∀ w ∈ h.calls, (w.group, w.key) ∈ h.opened ∧ (w.selections.map (·.id)).Nodup ∧
      (∀ id, id ∈ w.selections.map (·.id) ↔ (id, w.group) ∈ h.attached) ∧
      ∀ x ∈ w.selections, ∃ a ∈ h.additions, a.key = w.key ∧ x ∈ a.selections) ∧
    (∀ group ∈ h.unsettled, ∀ result id, (h.settle group result).schedule.groupOf? id =
      (h.schedule.groupOf? id).filter (· ≠ group)) ∧
    h.schedule.pendingCount = h.unsettled.length ∧
    ∀ a ∈ h.additions, (∀ x ∈ a.selections, ∃ group, (x.id, group) ∈ a.attached) ∧
      (h.schedule.outcome? a.ticket = some (.ok ()) ↔
        ∀ q ∈ a.attached, (q.2, .ok ()) ∈ h.settled) := by
  have sound := run.sound
  have hgroup : ∀ {k : History}, Sound k → ∀ id group, k.schedule.groupOf? id = some group ↔
      (id, group) ∈ k.attached ∧ group ∈ k.unsettled := fun hk id group =>
    (groupOf?_eq_some_iff hk.pending).trans (hk.live id group)
  refine ⟨hgroup sound, sound.calls, fun w hw => ?_, fun group hg result id => ?_,
    run.pendingCount_eq, fun a ha => ⟨sound.placed a ha, ?_⟩⟩
  · have hgathers := sound.gathers w (.inr hw)
    refine ⟨hgathers.opened, hgathers.nodup, fun id => ?_, hgathers.added⟩
    rw [List.mem_map]
    exact hgathers.attached id
  · refine Option.ext fun g => ?_
    rw [hgroup (sound.settle hg result), mem_unsettled_settle, Option.filter_eq_some_iff, hgroup sound,
      decide_eq_true_eq, and_assoc]
    rfl
  · rw [outcome?_eq_ok_iff (sound.outcomes ▸ sound.settled), sound.outcomes]
    constructor
    · exact fun hall q hq => hall q.2 ((sound.tickets a ha q.2).mpr ⟨q.1, hq⟩)
    · intro hall g hg
      obtain ⟨id, hid⟩ := (sound.tickets a ha g).mp hg
      exact hall _ hid

/-- A selection that is fetched for one caller when another one asks for it and for a second one:
this one gets a window of its own, whose group settles first. -/
def overlap : History :=
  let first : Selection := { node := { id := 0, key := .field "first" } }
  let second : Selection := { node := { id := 1, key := .field "second" } }
  (((((({} : History).add [first, first] {}).close 1).add [first, second] {}).close 2).settle 2
    (.ok ()))

/-- The first selection is still attached to its group, and the second one to none. -/
theorem grouping_sound_overlap :
    Run overlap ∧ overlap.schedule.groupOf? 0 = some 1 ∧ overlap.schedule.groupOf? 1 = none ∧
      overlap.schedule.pendingCount = 1 := by
  have run : Run overlap :=
    .settle (.close (.add (.close (.add .start _ _) 1) _ _) 2) (by decide) (.ok ())
  obtain ⟨hgroup, _, _, _, hcount, _⟩ := grouping_sound run
  refine ⟨run, (hgroup 0 1).mpr (by decide), ?_, hcount.trans (by decide)⟩
  exact Option.eq_none_iff_forall_ne_some.mpr fun group hg =>
    absurd ((hgroup 1 group).mp hg) (by
      rintro ⟨ha, hu⟩
      have hboth : ∀ q ∈ overlap.attached, q.2 ∈ overlap.unsettled → q.1 ≠ 1 := by decide
      exact hboth (1, group) ha hu rfl)

end LazyGraph.Schedule
