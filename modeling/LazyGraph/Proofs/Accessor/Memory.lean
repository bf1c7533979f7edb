import Mathlib.Data.List.Nodup
import LazyGraph.Accessor.Context
import LazyGraph.Proofs.Json.Equality

/-!
The memory of a context: which accessors are handed out again. Each accessor is made for one value,
and at most one is remembered at a spot. It stays there until another value is found or the spot is
written, as long as it is held.
-/
namespace LazyGraph

/-- Where accessors are remembered: under a selection, and at a path. -/
structure Spot where
  selection : Nat
  path : CachePath
  deriving DecidableEq

def Remembered.spot (r : Remembered) : Spot := ⟨r.selection, r.path⟩

/-- An object as it was found: where, as which value, and through which accessor it is read. -/
structure Finding where
  spot : Spot
  data : Json
  accessor : Nat

def Finding.remembered (f : Finding) : Remembered :=
  { selection := f.spot.selection, path := f.spot.path, data := f.data, accessor := f.accessor }

/-- The accessors that a context remembers and that are held, and the name of the next one. -/
structure Memory where
  remembered : List Remembered
  held : List Nat
  next : Nat

def Context.memory (c : Context) : Memory := ⟨c.remembered, c.held, c.nextAccessor⟩

namespace Memory

/-- What is told of a memory: an object was found while accessors were held, or a spot written. -/
inductive Event
  | found (f : Finding) (held : List Nat)
  | written (spot : Spot)

def isAt (r : Remembered) (spot : Spot) : Bool :=
  r.selection == spot.selection && r.path == spot.path

/-- The accessor that is handed out again for a value. -/
def lookup? (m : Memory) (spot : Spot) (data : Json) : Option Nat :=
  (m.remembered.find? fun r => isAt r spot && r.data.equal data && m.held.contains r.accessor).map
    (·.accessor)

def forget (m : Memory) (spot : Spot) : Memory :=
  { m with remembered := m.remembered.filter (!isAt · spot) }

/-- Remembers a new accessor. -/
def remember (m : Memory) (f : Finding) : Memory :=
  { m with remembered := f.remembered :: (m.forget f.spot).remembered, next := m.next + 1 }

/-- A move of the memory, with what is told of it. An accessor that is held after an idle move was
held before, or is new. -/
inductive Moves (m : Memory) : Memory → Option Event → Prop
  | idle {held : List Nat} {next : Nat} (later : m.next ≤ next)
    (known : ∀ a ∈ held, a ∈ m.held ∨ m.next ≤ a ∧ a < next) :
    Moves m { m with held, next } none
  | reuse (f : Finding) (reused : m.lookup? f.spot f.data = some f.accessor) :
    Moves m { m with held := f.accessor :: m.held } (some (.found f m.held))
  | remember (f : Finding) (unknown : m.lookup? f.spot f.data = none)
    (fresh : f.accessor = m.next) :
    Moves m { m.remember f with held := f.accessor :: m.held } (some (.found f m.held))
  | write (spot : Spot) : Moves m (m.forget spot) (some (.written spot))

/-- Moves one after the other, with all that is told of them. -/
inductive Run (start : Memory) : Memory → List Event → Prop
  | start : Run start start []
  | move {m m' : Memory} {log : List Event} {e : Option Event} (run : Run start m log)
    (moves : m.Moves m' e) : Run start m' (log ++ e.toList)

variable {start m m' : Memory} {log before after : List Event} {e : Option Event} {ev : Event}
  {f g : Finding} {r : Remembered} {spot : Spot} {data : Json} {made : Nat → Json}

theorem isAt_iff : isAt r spot = true ↔ r.spot = spot := by
  rw [isAt, Bool.and_eq_true, beq_iff_eq, beq_iff_eq, Remembered.spot, Spot.mk.injEq]

theorem mem_forget : r ∈ (m.forget spot).remembered ↔ r ∈ m.remembered ∧ r.spot ≠ spot := by
  rw [forget, List.mem_filter, Bool.not_eq_eq_eq_not, Bool.not_true, ← Bool.not_eq_true, isAt_iff]

/-- What is handed out again was remembered for that value, and is held. -/
theorem of_lookup? {a : Nat} (h : m.lookup? spot data = some a) :
    ∃ r ∈ m.remembered, r.spot = spot ∧ r.data.form = data.form ∧ r.accessor = a ∧ a ∈ m.held := by
  obtain ⟨r, hr, rfl⟩ := Option.map_eq_some_iff.mp h
  have hfits := List.find?_some hr
  rw [Bool.and_eq_true, Bool.and_eq_true, isAt_iff, Json.equal_iff_form,
    List.contains_iff_mem] at hfits
  exact ⟨r, List.mem_of_find?_eq_some hr, hfits.1.1, hfits.1.2, rfl, hfits.2⟩

/-! ### Each accessor is made for one value -/

/-- One entry at most stands at a spot, and each accessor that was ever found is for one value. -/
structure Sound (m : Memory) (log : List Event) (made : Nat → Json) : Prop where
  single : (m.remembered.map Remembered.spot).Nodup
  entries : ∀ r ∈ m.remembered, r.accessor < m.next ∧ r.data.form = (made r.accessor).form
  findings : ∀ f held, .found f held ∈ log →
    f.accessor < m.next ∧ f.data.form = (made f.accessor).form

theorem sound_start (blank : start.remembered = []) : start.Sound [] fun _ => .null where
  single := by
    rw [blank]
    exact List.nodup_nil
  entries := by
    rw [blank]
    exact List.forall_mem_nil _
  findings _ _ hf := absurd hf List.not_mem_nil

namespace Sound

theorem idle (h : m.Sound log made) {next : Nat} (later : m.next ≤ next) (held : List Nat) :
    { m with held, next }.Sound log made where
  single := h.single
  entries r hr := ⟨Nat.lt_of_lt_of_le (h.entries r hr).1 later, (h.entries r hr).2⟩
  findings f held hf := by
    obtain ⟨hlt, hform⟩ := h.findings f held hf
    exact ⟨Nat.lt_of_lt_of_le hlt later, hform⟩

theorem forget (h : m.Sound log made) (spot : Spot) : (m.forget spot).Sound log made where
  single := h.single.sublist (List.filter_sublist.map _)
  entries r hr := h.entries r (mem_forget.mp hr).1
  findings := h.findings

/-- The new accessor is for the value that was found. -/
theorem remember (h : m.Sound log made) (fresh : f.accessor = m.next) :
    (m.remember f).Sound log (Function.update made f.accessor f.data) := by
  have hself : f.accessor < m.next + 1 ∧
      f.data.form = (Function.update made f.accessor f.data f.accessor).form := by
    rw [Function.update_self, fresh]
    exact ⟨Nat.lt_succ_self m.next, rfl⟩
  have hold : ∀ a < m.next, a < m.next + 1 ∧ Function.update made f.accessor f.data a = made a :=
    fun a ha => ⟨Nat.lt_succ_of_lt ha, Function.update_of_ne (fresh ▸ Nat.ne_of_lt ha) _ _⟩
  constructor
  case single =>
    refine List.nodup_cons.mpr ⟨fun hm => ?_, (h.forget f.spot).single⟩
    obtain ⟨r, hr, hspot⟩ := List.mem_map.mp hm
    exact (mem_forget.mp hr).2 hspot
  case entries =>
    refine List.forall_mem_cons.mpr ⟨hself, fun r hr => ?_⟩
    obtain ⟨hlt, hform⟩ := h.entries r (mem_forget.mp hr).1
    exact ⟨(hold _ hlt).1, by rw [(hold _ hlt).2, hform]⟩
  case findings =>
    intro g held hg
    obtain ⟨hlt, hform⟩ := h.findings g held hg
    exact ⟨(hold _ hlt).1, by rw [(hold _ hlt).2, hform]⟩

/-- What is told besides has to be accounted for where it was found. -/
theorem told (h : m.Sound log made) (found : ∀ f held, ev = .found f held →
    f.accessor < m.next ∧ f.data.form = (made f.accessor).form) : m.Sound (log ++ [ev]) made where
  single := h.single
  entries := h.entries
  findings f held hf := (List.mem_append.mp hf).elim (h.findings f held) fun hlast =>
    found f held (List.mem_singleton.mp hlast).symm

/-- Whatever happens, each accessor stays for the value that it was made for. -/
theorem moves (h : m.Sound log made) (moves : m.Moves m' e) :
    ∃ made', m'.Sound (log ++ e.toList) made' := by
  cases moves with
  | idle later known =>
      rw [Option.toList_none, List.append_nil]
      exact ⟨made, h.idle later _⟩
  | reuse f reused =>
      obtain ⟨r, hr, _, hform, haccessor, _⟩ := of_lookup? reused
      refine ⟨made, (h.idle (Nat.le_refl m.next) _).told ?_⟩
      rintro _ _ ⟨⟩
      rw [← haccessor, ← hform]
      exact h.entries r hr
  | remember f unknown fresh =>
      refine ⟨_, ((h.remember fresh).idle (Nat.le_refl _) _).told ?_⟩
      rintro _ _ ⟨⟩
      rw [Function.update_self]
      exact ⟨fresh ▸ Nat.lt_succ_self m.next, rfl⟩
  | write spot => exact ⟨made, (h.forget spot).told fun _ _ he => nomatch he⟩

end Sound

theorem Sound.run (h : start.Sound before made) (run : Run start m after) :
    ∃ made, m.Sound (before ++ after) made := by
  induction run with
  | start =>
      rw [List.append_nil]
      exact ⟨made, h⟩
  | move _ moves ih =>
      obtain ⟨_, h⟩ := ih
      rw [← List.append_assoc]
      exact h.moves moves

/-- Whenever an accessor is found, it is found for one value. -/
theorem Run.equal (blank : start.remembered = []) (run : Run start m log) {held held' : List Nat}
    (hf : .found f held ∈ log) (hg : .found g held' ∈ log) (same : g.accessor = f.accessor) :
    g.data.equal f.data = true := by
  obtain ⟨made, h⟩ := (sound_start blank).run run
  rw [Json.equal_iff_form, (h.findings g held' hg).2, (h.findings f held hf).2, same]

/-! ### An accessor stays at its spot -/

/-- The accessor is remembered at its spot. -/
def Stands (m : Memory) (f : Finding) : Prop :=
  ∃ r ∈ m.remembered, r.spot = f.spot ∧ r.accessor = f.accessor ∧ r.data.form = f.data.form

/-- The accessor is remembered, or it is lost for good. -/
def Keeps (m : Memory) (f : Finding) : Prop :=
  f.accessor < m.next ∧ (m.Stands f ∨ f.accessor ∉ m.held)

/-- At the spot of a finding nothing is written, and no other value is found. -/
def Unmoved (f : Finding) (log : List Event) : Prop :=
  .written f.spot ∉ log ∧
    ∀ g held, .found g held ∈ log → g.spot = f.spot → g.data.equal f.data = true

theorem unmoved_append {log' : List Event} :
    Unmoved f (log ++ log') ↔ Unmoved f log ∧ Unmoved f log' := by
  simp only [Unmoved, List.mem_append, not_or, or_imp, forall_and]
  exact and_and_and_comm

theorem Stands.of_subset (h : m.Stands f)
    (sub : ∀ r ∈ m.remembered, r.spot = f.spot → r ∈ m'.remembered) : m'.Stands f := by
  obtain ⟨r, hr, hspot, hrest⟩ := h
  exact ⟨r, sub r hr hspot, hspot, hrest⟩

/-- An accessor that stands at its spot and is held is handed out again for its value. -/
theorem Stands.lookup? (h : m.Stands f) (single : (m.remembered.map Remembered.spot).Nodup)
    (held : f.accessor ∈ m.held) (same : data.form = f.data.form) :
    m.lookup? f.spot data = some f.accessor := by
  obtain ⟨r, hr, hspot, haccessor, hform⟩ := h
  cases hreused : m.lookup? f.spot data with
  | none =>
      rw [Memory.lookup?, Option.map_eq_none_iff, List.find?_eq_none] at hreused
      refine absurd ?_ (hreused r hr)
      rw [Bool.and_eq_true, Bool.and_eq_true, isAt_iff, Json.equal_iff_form,
        List.contains_iff_mem, haccessor]
      exact ⟨⟨hspot, hform.trans same.symm⟩, held⟩
  | some a =>
      obtain ⟨r', hr', hspot', _, rfl, _⟩ := of_lookup? hreused
      have hsame := List.inj_on_of_nodup_map single hr' hr (hspot'.trans hspot.symm)
      rw [hsame, haccessor]

/-- What was found stands at its spot. -/
theorem Sound.keeps {held : List Nat} (h : m.Sound log made)
    (moves : m.Moves m' (some (.found f held))) : m'.Keeps f := by
  cases moves with
  | reuse f reused =>
      obtain ⟨r, hr, hspot, hform, haccessor, _⟩ := of_lookup? reused
      exact ⟨haccessor ▸ (h.entries r hr).1, .inl ⟨r, hr, hspot, haccessor, hform⟩⟩
  | remember f unknown fresh =>
      refine ⟨fresh ▸ Nat.lt_succ_self m.next, .inl ?_⟩
      exact ⟨f.remembered, List.mem_cons_self, rfl, rfl, rfl⟩

/-- While nothing is moved at its spot, an accessor stays remembered as long as it is held. -/
theorem Keeps.moves (h : m.Keeps f) (sound : m.Sound log made) (moves : m.Moves m' e)
    (unmoved : Unmoved f e.toList) : m'.Keeps f := by
  obtain ⟨known, h⟩ := h
  cases moves with
  | idle later obtained =>
      refine ⟨Nat.lt_of_lt_of_le known later, h.imp id fun lost hm => ?_⟩
      exact (obtained _ hm).elim lost fun hnew => Nat.not_le_of_lt known hnew.1
  | reuse g reused =>
      obtain ⟨_, _, _, _, _, hheld⟩ := of_lookup? reused
      refine ⟨known, h.imp id fun lost hm => lost ?_⟩
      exact (List.mem_cons.mp hm).elim (fun he => he ▸ hheld) id
  | remember g unknown fresh =>
      have hlost : f.accessor ∉ m.held → f.accessor ∉ g.accessor :: m.held := by
        intro lost hm
        refine (List.mem_cons.mp hm).elim (fun he => ?_) lost
        exact Nat.ne_of_lt known (he.trans fresh)
      refine ⟨Nat.lt_succ_of_lt known, ?_⟩
      by_cases hspot : g.spot = f.spot
      · refine .inr (hlost fun hheld => ?_)
        have stands := h.resolve_right fun lost => lost hheld
        have hsame := unmoved.2 g m.held (List.mem_singleton_self _) hspot
        have hreused := stands.lookup? sound.single hheld ((Json.equal_iff_form _ _).mp hsame)
        rw [hspot, hreused] at unknown
        cases unknown
      · refine h.imp (fun stands => stands.of_subset fun r hr hat => ?_) hlost
        exact List.mem_cons_of_mem _ (mem_forget.mpr ⟨hr, fun he => hspot (he.symm.trans hat)⟩)
  | write spot =>
      refine ⟨known, h.imp_left fun stands => stands.of_subset fun r hr hat => ?_⟩
      refine mem_forget.mpr ⟨hr, ?_⟩
      rintro rfl
      exact unmoved.1 (hat ▸ List.mem_singleton_self _)

theorem Keeps.run (h : start.Keeps f) (sound : start.Sound before made) (run : Run start m after)
    (unmoved : Unmoved f after) : m.Keeps f := by
  induction run with
  | start => exact h
  | move run moves ih =>
      obtain ⟨_, hsound⟩ := sound.run run
      obtain ⟨hbefore, hlast⟩ := unmoved_append.mp unmoved
      exact (ih hbefore).moves hsound moves hlast

/-- A run goes through each of its events. -/
theorem Run.split (run : Run start m log) (h : log = before ++ ev :: after) :
    ∃ m₁ m₂, Run start m₁ before ∧ m₁.Moves m₂ (some ev) ∧ Run m₂ m after := by
  induction run generalizing after with
  | start => exact absurd h (by simp)
  | @move m m' log e run moves ih =>
      cases e with
      | none =>
          rw [Option.toList_none, List.append_nil] at h
          obtain ⟨m₁, m₂, hbefore, hmoves, hafter⟩ := ih h
          exact ⟨m₁, m₂, hbefore, hmoves, List.append_nil after ▸ hafter.move moves⟩
      | some last =>
          rcases List.eq_nil_or_concat after with rfl | ⟨rest, last', rfl⟩
          · obtain ⟨rfl, hlast⟩ := List.append_inj' h rfl
            obtain rfl := (List.cons.inj hlast).1
            exact ⟨m, m', run, moves, .start⟩
          · rw [List.concat_eq_append] at h ⊢
            have hsplit : log ++ [last] = (before ++ ev :: rest) ++ [last'] := by
              rw [List.append_assoc]
              exact h
            obtain ⟨hlog, hlast⟩ := List.append_inj' hsplit rfl
            obtain rfl := (List.cons.inj hlast).1
            obtain ⟨m₁, m₂, hbefore, hmoves, hafter⟩ := ih hlog
            exact ⟨m₁, m₂, hbefore, hmoves, hafter.move moves⟩

/-- What can be handed out again is. -/
theorem Moves.lookup? {held : List Nat} (moves : m.Moves m' (some (.found g held))) :
    held = m.held ∧ ∀ a, m.lookup? g.spot g.data = some a → g.accessor = a := by
  cases moves with
  | reuse g reused => exact ⟨rfl, fun a ha => Option.some.inj (reused.symm.trans ha)⟩
  | remember g unknown fresh =>
      refine ⟨rfl, fun a ha => ?_⟩
      rw [unknown] at ha
      cases ha

/-- As long as an accessor is held, and the same value is found at its spot, it is found again. -/
theorem Run.again (blank : start.remembered = []) {between : List Event}
    {heldThen heldNow : List Nat}
    (run : Run start m (before ++ .found f heldThen :: (between ++ .found g heldNow :: after)))
    (unmoved : Unmoved f between) (spot : g.spot = f.spot) (held : f.accessor ∈ heldNow)
    (same : g.data.equal f.data = true) : g.accessor = f.accessor := by
  obtain ⟨m₁, m₂, hbefore, hfound, hrest⟩ := run.split rfl
  obtain ⟨m₃, m₄, hbetween, hagain, _⟩ := hrest.split rfl
  obtain ⟨_, hsound⟩ := (sound_start blank).run hbefore
  obtain ⟨_, hsound'⟩ := hsound.moves hfound
  obtain ⟨_, hsound''⟩ := hsound'.run hbetween
  obtain ⟨_, hkeeps⟩ := (hsound.keeps hfound).run hsound' hbetween unmoved
  obtain ⟨rfl, hreuses⟩ := hagain.lookup?
  have stands := hkeeps.resolve_right fun lost => lost held
  have hform := (Json.equal_iff_form _ _).mp same
  exact hreuses _ (spot ▸ stands.lookup? hsound''.single held hform)

end Memory
end LazyGraph
