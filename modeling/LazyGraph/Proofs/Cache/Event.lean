import LazyGraph.Cache

/-!
Runs of a cache: the operations that may be asked of it, what each of them comes to, and the
caches that a run can end in.
-/
namespace LazyGraph.Cache

/-- An operation with its input. -/
inductive Event
  | set (payload : Json) (skipNotify : Bool)
  | write (path : CachePath) (value : Json)
  | seed (path : CachePath) (value : Json)
  | evict (path : String)
  | sweep
  | clear
  | restore (snapshot : Snapshot)
  | get (path : CachePath) (includeExpired : Bool)
  | read (path : CachePath)
  | subscribe (paths : Option (List CachePath))
  | unsubscribe (id : Nat)

/-- What an operation comes to: whether it was done, the cache after it, and whom it tells. -/
structure Outcome where
  succeeded : Bool
  cache : Cache
  notice : Option Notice := none

/-- What an operation that gives a new cache or an error comes to. -/
def Outcome.ofResult (c : Cache) : Except ValidationError (Cache × Notice) → Outcome
  | .ok (c, notice) => { succeeded := true, cache := c, notice := some notice }
  | .error _ => { succeeded := false, cache := c }

/-- Does an operation at `now`. One that is refused, or that finds nothing to do, fails. -/
def act (c : Cache) (now : Nat) : Event → Outcome
  | .set payload skipNotify => .ofResult c (c.set now payload skipNotify)
  | .write path value =>
    let (c, notice) := c.write now path value
    { succeeded := notice.isSome, cache := c, notice }
  | .seed path value =>
    let (seeded, c) := c.seed now path value
    { succeeded := seeded, cache := c }
  | .evict path =>
    match CachePath.parse path with
    | .ok path =>
      let (removed, c) := c.evict path
      { succeeded := removed, cache := c }
    | .error _ => { succeeded := false, cache := c }
  | .sweep => { succeeded := true, cache := (c.sweep now).2 }
  | .clear => { succeeded := true, cache := c.clear }
  | .restore snapshot => .ofResult c (c.restore now snapshot)
  | .get path includeExpired => { succeeded := true, cache := (c.get now path includeExpired).2 }
  | .read path => { succeeded := true, cache := (c.read path).2 }
  | .subscribe paths => { succeeded := true, cache := (c.subscribe paths).2 }
  | .unsubscribe id => { succeeded := true, cache := c.unsubscribe id }

/-- The caches that runs from an empty one end in, with the time of their last operation. -/
inductive Reachable (options : Options) : Nat → Cache → Prop
  | new (now : Nat) : Reachable options now (new options)
  | act {now later : Nat} {c : Cache} (run : Reachable options now c) (passed : now ≤ later)
      (e : Event) : Reachable options later (c.act later e).cache

/-- The cache after operations that are all done at `now`. -/
def after (c : Cache) (now : Nat) (events : List Event) : Cache :=
  events.foldl (fun c e => (c.act now e).cache) c

theorem Reachable.after {options : Options} {now : Nat} {c : Cache}
    (run : Reachable options now c) (events : List Event) :
    Reachable options now (c.after now events) := by
  induction events generalizing c with
  | nil => exact run
  | cons e events ih => exact ih (run.act (Nat.le_refl now) e)

end LazyGraph.Cache
