import PulseSequencer.Sequence.Basic

/-!
# Resolution of times

The times of one variant in µs. A reference leads from one point to the next; one that leads back to itself is a fault.

* `Timeline` : a sequence with the values of its control variables in one variant;
* `Timeline.resolve`, `Timeline.timeOf` : a time point, and the point a reference stands for;
* `Timeline.places` : the boundaries of the windows and the jumps;
* `Resolver` : a timeline that remembers the times it has found, and what it is resolving; `Resolver.timeOf` answers
  with them.
-/

namespace PulseSequencer

structure Timeline where
  sequence : Sequence
  values : Valuation

namespace Timeline

def ofVariant (s : Sequence) (variant : Binary64) : Except Fault Timeline := do
  return ⟨s, ← Valuation.ofVariables s.controls variant s.variants⟩

def unknown (owner : String) (r : Reference) : Fault :=
  ⟨.unresolvedReference, some owner, s!"'{owner}' refers to unknown {r.text}"⟩

def circular (owner : String) (r : Reference) : Fault :=
  ⟨.recursiveReference, some owner, s!"Time of '{owner}' depends on itself through {r.text}"⟩

/-- The value of a control variable that `owner` uses. -/
def valueOf (t : Timeline) (name owner : String) : Except Fault Binary64 :=
  match t.values.get? name with
  | some value => .ok value
  | none => .error (unknown owner (.control name))

def offset (t : Timeline) (o : Offset) (owner : String) : Except Fault Binary64 :=
  match o with
  | .absolute value => .ok value
  | .control name => t.valueOf name owner

/-- The time point behind a window boundary or a jump. -/
def pointOf? (t : Timeline) : Reference → Option TimePoint
  | .start window => (t.sequence.window? window).map Window.start
  | .finish window => (t.sequence.window? window).map Window.finish
  | .jump name => (t.sequence.jump? name).map Jump.time
  | .control _ => none

/-- The references that stand for a time point. -/
def places (t : Timeline) : List Reference :=
  (t.sequence.windows.flatMap fun e => [.start e.1.name, .finish e.1.name]) ++
    t.sequence.jumps.map fun e => .jump e.1.name

/-- The places that are not being resolved. -/
def openPlaces (t : Timeline) (active : List Reference) : List Reference := t.places.filter fun r => !active.contains r

theorem mem_places {t : Timeline} {r : Reference} {p : TimePoint} (h : t.pointOf? r = some p) : r ∈ t.places := by
  cases r with
  | start window | finish window =>
    obtain ⟨w, hw, -⟩ := Option.map_eq_some_iff.1 h
    obtain ⟨e, he, -⟩ := Option.map_eq_some_iff.1 hw
    have hname : e.1.name = window := by simpa using List.find?_some he
    refine List.mem_append_left _ (List.mem_flatMap.2 ⟨e, List.mem_of_find?_eq_some he, ?_⟩)
    simp [hname]
  | jump name =>
    obtain ⟨j, hj, -⟩ := Option.map_eq_some_iff.1 h
    obtain ⟨e, he, -⟩ := Option.map_eq_some_iff.1 hj
    have hname : e.1.name = name := by simpa using List.find?_some he
    exact List.mem_append_right _ (List.mem_map.2 ⟨e, List.mem_of_find?_eq_some he, by rw [hname]⟩)
  | control name => cases h

/-- Resolving one more place leaves fewer open. -/
theorem openPlaces_lt {t : Timeline} {active : List Reference} {r : Reference} (hr : r ∈ t.places)
    (hactive : ¬ active.contains r = true) : (t.openPlaces (r :: active)).length < (t.openPlaces active).length := by
  have hopen : t.openPlaces (r :: active) = (t.openPlaces active).filter fun p => !p == r := by
    unfold openPlaces
    rw [List.filter_filter]
    refine List.filter_congr fun p _ => ?_
    rw [List.contains_cons, Bool.not_or]
  rw [hopen, List.length_filter_lt_length_iff_exists]
  refine ⟨r, List.mem_filter.2 ⟨hr, ?_⟩, ?_⟩
  · simpa using hactive
  · simp

/-- No chain of references without repetition is longer. -/
def depth (t : Timeline) : Nat := 2 * t.sequence.windows.length + t.sequence.jumps.length + 1

/-- The time a reference stands for, `active` being the references that are being resolved. -/
def timeFrom (t : Timeline) : (fuel : Nat) → (active : List Reference) → Reference → (owner : String) →
    Except Fault Binary64
  | _, _, .control name, owner => t.valueOf name owner
  | 0, _, r, owner => .error (circular owner r)
  | fuel + 1, active, r, owner =>
    if active.contains r then .error (circular owner r)
    else
      match t.pointOf? r with
      | none => .error (unknown owner r)
      | some (.absolute value) => .ok value
      | some (.control name) => t.valueOf name r.name
      | some (.relative base distance) => do
        let origin ← t.timeFrom fuel (r :: active) base r.name
        return origin + (← t.offset distance r.name)

def timeOf (t : Timeline) (r : Reference) (owner : String) : Except Fault Binary64 :=
  t.timeFrom t.depth [] r owner

def resolve (t : Timeline) (p : TimePoint) (owner : String) : Except Fault Binary64 :=
  match p with
  | .absolute value => .ok value
  | .control name => t.valueOf name owner
  | .relative base distance => do
    let origin ← t.timeOf base owner
    return origin + (← t.offset distance owner)

def startOf (t : Timeline) (window : String) : Except Fault Binary64 := t.timeOf (.start window) window

def finishOf (t : Timeline) (window : String) : Except Fault Binary64 := t.timeOf (.finish window) window

def jumpTime (t : Timeline) (jump : String) : Except Fault Binary64 := t.timeOf (.jump jump) jump

/-- The latest window end or jump time, `0` if there is none after it. -/
def latest (t : Timeline) : Except Fault Binary64 :=
  t.sequence.channels.foldlM
    (fun latest c => do
      let latest ← c.windows.foldlM (fun m w => do return Binary64.max m (← t.finishOf w.name)) latest
      c.jumps.foldlM (fun m j => do return Binary64.max m (← t.jumpTime j.name)) latest)
    0

end Timeline

/-! ## Remembered times -/

/-- A timeline with the times it has found so far and the references that it is resolving. -/
structure Resolver where
  timeline : Timeline
  known : List (Reference × Binary64)
  active : List Reference

namespace Resolver

def ofVariant (s : Sequence) (variant : Binary64) : Except Fault Resolver := do
  return ⟨← Timeline.ofVariant s variant, [], []⟩

def known? (known : List (Reference × Binary64)) (r : Reference) : Option Binary64 :=
  (known.find? fun e => e.1 == r).map Prod.snd

/-- The resolution of a reference begins. -/
def enter (v : Resolver) (r : Reference) : Resolver := { v with active := r :: v.active }

def leave (v : Resolver) (r : Reference) : Resolver := { v with active := v.active.filter fun a => !a == r }

/-- Adds the time that a reference has been found to stand for, if it has been found. -/
def remember (v : Resolver) (r : Reference) : Except Fault Binary64 → Resolver
  | .ok time => { v with known := v.known ++ [(r, time)] }
  | .error _ => v

/-- The end of a resolution that was entered: a time is remembered, and the reference is left in either case. -/
def conclude (r : Reference) (answer : Except Fault Binary64 × Resolver) : Except Fault Binary64 × Resolver :=
  (answer.1, (answer.2.remember r answer.1).leave r)

/-- As `Timeline.timeOf`, but a remembered time is taken at once and a new one is remembered. There is no bound on the
depth: each level enters one more of the places. -/
def timeOf (v : Resolver) (r : Reference) (owner : String) : Except Fault Binary64 × Resolver :=
  match r with
  | .control name => (v.timeline.valueOf name owner, v)
  | r =>
    match known? v.known r with
    | some time => (.ok time, v)
    | none =>
      if v.active.contains r then (.error (Timeline.circular owner r), v)
      else
        conclude r <|
          match _ : v.timeline.pointOf? r with
          | none => (.error (Timeline.unknown owner r), v.enter r)
          | some (.absolute value) => (.ok value, v.enter r)
          | some (.control name) => (v.timeline.valueOf name r.name, v.enter r)
          | some (.relative base distance) =>
            let (origin, w) := (v.enter r).timeOf base r.name
            (do return (← origin) + (← v.timeline.offset distance r.name), w)
termination_by (v.timeline.openPlaces v.active).length
decreasing_by exact Timeline.openPlaces_lt (Timeline.mem_places ‹_›) ‹_›

def resolve (v : Resolver) (p : TimePoint) (owner : String) : Except Fault Binary64 × Resolver :=
  match p with
  | .absolute value => (.ok value, v)
  | .control name => (v.timeline.valueOf name owner, v)
  | .relative base distance =>
    let (origin, w) := v.timeOf base owner
    (do return (← origin) + (← v.timeline.offset distance owner), w)

def startOf (v : Resolver) (window : String) : Except Fault Binary64 × Resolver := v.timeOf (.start window) window

def finishOf (v : Resolver) (window : String) : Except Fault Binary64 × Resolver := v.timeOf (.finish window) window

def jumpTime (v : Resolver) (jump : String) : Except Fault Binary64 × Resolver := v.timeOf (.jump jump) jump

end Resolver

end PulseSequencer
