import PulseSequencer.Proofs.Attempt
import PulseSequencer.Time.Resolution

/-!
# Times, remembered or not

A resolver that has answered other questions before, failed ones included, answers as one that starts afresh. What it
says is told by the trail of references that the question starts: a trail in a circle is a recursive reference, and one
that ends in something unknown, or needs an unknown variable on its way, an unresolved one.

* `Timeline.Stands` : the time a reference stands for, without a bound on the depth and without a memory;
* `Timeline.Fate`, `Timeline.fate_timeOf` : the three ways in which the resolution of a reference ends;
* `Timeline.Repeats`, `Timeline.Dangles`, `Timeline.ruling_answer` : what the trail of a question says about its answer;
* `Resolver.Restored`, `Resolver.restored_timeOf` : a query, failed or not, leaves what is being resolved as it was;
* `Resolver.Sound`, `Resolver.Sound.ask` : what is remembered is right, and then no answer depends on it;
* `Resolver.answers_fresh` : series of questions.
-/

namespace PulseSequencer

/-- Where every walk ends, none comes back to its start. -/
theorem not_transGen_of_acc {α : Type} {r : α → α → Prop} {a : α} (h : Acc (fun b a => r a b) a) :
    ¬ Relation.TransGen r a a := by
  induction h with
  | intro a _ ih =>
    intro hcircle
    obtain ⟨b, hab, hba⟩ := Relation.TransGen.head'_iff.1 hcircle
    exact ih b hab (.tail' hba hab)

namespace Timeline

variable {t : Timeline} {active : List Reference} {r a b : Reference} {fuel : Nat} {owner : String} {x : Binary64}

/-! ## Trails -/

/-- The reference that the point behind a reference is given by. -/
def next? (t : Timeline) (r : Reference) : Option Reference :=
  match t.pointOf? r with
  | some (.relative base _) => some base
  | _ => none

def Next (t : Timeline) (a b : Reference) : Prop := t.next? a = some b

/-- The trail of references from `r` on comes to an end. -/
def Grounded (t : Timeline) (r : Reference) : Prop := Acc (fun b a => t.Next a b) r

/-- The point is, or its offset is, a variable without a value. -/
def Lacks (t : Timeline) : TimePoint → Prop
  | .control name => t.values.get? name = none
  | .relative _ (.control name) => t.values.get? name = none
  | _ => False

/-- There is no such window, jump or variable, or the point behind the reference lacks a variable. -/
def Unknown (t : Timeline) : Reference → Prop
  | .control name => t.values.get? name = none
  | r =>
    match t.pointOf? r with
    | none => True
    | some p => t.Lacks p

theorem next_of_pointOf? {base : Reference} {distance : Offset} (h : t.pointOf? r = some (.relative base distance)) :
    t.Next r base := by
  rw [Next, next?, h]

theorem grounded_of_next?_eq_none (h : t.next? r = none) : t.Grounded r :=
  .intro r fun b hb => by
    have hb : t.next? r = some b := hb
    rw [h] at hb
    cases hb

theorem Grounded.of_next (h : t.Next a b) (hb : t.Grounded b) : t.Grounded a :=
  .intro a fun b' hb' => by
    cases h.symm.trans hb'
    exact hb

theorem unknown_iff {p : TimePoint} (h : t.pointOf? r = some p) : t.Unknown r ↔ t.Lacks p := by
  cases r with
  | control name => cases h
  | start _ | finish _ | jump _ => simp only [Unknown, h]

theorem unknown_of_pointOf? (hr : ∀ name, r ≠ .control name) (h : t.pointOf? r = none) : t.Unknown r := by
  cases r with
  | control name => exact absurd rfl (hr name)
  | start _ | finish _ | jump _ => simp only [Unknown, h]

theorem ne_control_of_pointOf? {p : TimePoint} (h : t.pointOf? r = some p) (name : String) : r ≠ .control name := by
  rintro rfl
  cases h

/-! ## What a reference stands for -/

/-- The time a reference stands for. -/
inductive Stands (t : Timeline) : Reference → Binary64 → Prop
  | control {name : String} {value : Binary64} (h : t.values.get? name = some value) : Stands t (.control name) value
  | absolute {r : Reference} {value : Binary64} (h : t.pointOf? r = some (.absolute value)) : Stands t r value
  | named {r : Reference} {name : String} {value : Binary64} (h : t.pointOf? r = some (.control name))
      (hvalue : t.values.get? name = some value) : Stands t r value
  | relative {r base : Reference} {distance : Offset} {origin offset : Binary64}
      (h : t.pointOf? r = some (.relative base distance)) (hbase : Stands t base origin)
      (hoffset : t.offset distance r.name = .ok offset) : Stands t r (origin + offset)

theorem Stands.grounded (h : t.Stands r x) : t.Grounded r := by
  induction h with
  | control h => exact grounded_of_next?_eq_none rfl
  | absolute h => exact grounded_of_next?_eq_none (by rw [next?, h])
  | named h => exact grounded_of_next?_eq_none (by rw [next?, h])
  | relative h _ _ ih => exact ih.of_next (next_of_pointOf? h)

theorem valueOf_eq_ok {name : String} : t.valueOf name owner = .ok x ↔ t.values.get? name = some x := by
  unfold valueOf
  cases t.values.get? name <;> simp

theorem lacks_of_valueOf {name : String} {f : Fault} (h : t.valueOf name owner = .error f) :
    t.values.get? name = none ∧ f.kind = .unresolvedReference := by
  unfold valueOf at h
  split at h
  · cases h
  · cases h
    exact ⟨‹_›, rfl⟩

theorem not_lacks_of_offset {base : Reference} {distance : Offset} (h : t.offset distance owner = .ok x) :
    ¬ t.Lacks (.relative base distance) := by
  cases distance with
  | absolute value => exact id
  | control name =>
    have hvalue : t.values.get? name = some x := valueOf_eq_ok.1 h
    intro hlacks
    cases hvalue.symm.trans hlacks

theorem lacks_of_offset {base : Reference} {distance : Offset} {f : Fault} (h : t.offset distance owner = .error f) :
    t.Lacks (.relative base distance) ∧ f.kind = .unresolvedReference := by
  cases distance with
  | absolute value => cases h
  | control name => exact lacks_of_valueOf h

theorem Stands.exists_of_next (h : t.Stands r x) (hnext : t.Next r b) : ∃ y, t.Stands b y := by
  cases h with
  | control h => cases hnext
  | absolute h | named h =>
    rw [Next, next?, h] at hnext
    cases hnext
  | relative h hbase hoffset =>
    cases (next_of_pointOf? h).symm.trans hnext
    exact ⟨_, hbase⟩

theorem Stands.not_unknown (h : t.Stands r x) : ¬ t.Unknown r := by
  cases h with
  | control h =>
    intro hunknown
    cases h.symm.trans hunknown
  | absolute h =>
    rw [unknown_iff h]
    exact id
  | named h hvalue =>
    rw [unknown_iff h]
    intro hlacks
    cases hvalue.symm.trans hlacks
  | relative h _ hoffset =>
    rw [unknown_iff h]
    exact not_lacks_of_offset hoffset

theorem Stands.exists_jump {name : String} (h : t.Stands (.jump name) x) : ∃ e ∈ t.sequence.jumps, e.1.name = name := by
  have hplace : Reference.jump name ∈ t.places := by
    cases h <;> exact mem_places ‹_›
  simpa [places] using hplace

/-- Nothing on the trail is unknown. -/
theorem Stands.not_unknown_of_walk (h : t.Stands r x) (hwalk : Relation.ReflTransGen t.Next r b) : ¬ t.Unknown b := by
  have hall : ∃ y, t.Stands b y := by
    induction hwalk with
    | refl => exact ⟨x, h⟩
    | tail _ hnext ih =>
      obtain ⟨y, hy⟩ := ih
      exact hy.exists_of_next hnext
  obtain ⟨y, hy⟩ := hall
  exact hy.not_unknown

/-! ## The plain recursion -/

/-- The references that are being resolved: different places, from each of which the trail leads to `r`. -/
structure Behind (t : Timeline) (active : List Reference) (r : Reference) : Prop where
  nodup : active.Nodup
  places : ∀ a ∈ active, a ∈ t.places
  leads : ∀ a ∈ active, Relation.TransGen t.Next a r

theorem behind_nil (t : Timeline) (r : Reference) : t.Behind [] r := ⟨.nil, nofun, nofun⟩

theorem Behind.cons (h : t.Behind active r) (hr : r ∉ active) {base : Reference} {distance : Offset}
    (hpoint : t.pointOf? r = some (.relative base distance)) : t.Behind (r :: active) base where
  nodup := List.nodup_cons.2 ⟨hr, h.nodup⟩
  places := List.forall_mem_cons.2 ⟨mem_places hpoint, h.places⟩
  leads := by
    have hnext := next_of_pointOf? hpoint
    exact List.forall_mem_cons.2 ⟨.single hnext, fun a ha => (h.leads a ha).tail hnext⟩

theorem Behind.not_mem (h : t.Behind active r) (hr : t.Grounded r) : r ∉ active := fun hmem =>
  not_transGen_of_acc hr (h.leads r hmem)

theorem length_places (t : Timeline) : t.places.length + 1 = t.depth := by
  have htwo : ∀ ws : List (Window × Channel),
      (ws.flatMap fun e => [Reference.start e.1.name, Reference.finish e.1.name]).length = 2 * ws.length := by
    intro ws
    induction ws with
    | nil => rfl
    | cons w ws ih =>
      rw [List.flatMap_cons, List.length_append, ih, List.length_cons]
      simp only [List.length_cons, List.length_nil]
      omega
  rw [places, depth, List.length_append, htwo, List.length_map]

/-- There are not enough places for the depth to run out. -/
theorem Behind.length_lt (h : t.Behind active r) : active.length < t.depth := by
  have hle : active.length ≤ t.places.length := (h.nodup.subperm h.places).length_le
  have := t.length_places
  omega

/-- The step of the recursion, at any depth that is reached. -/
theorem timeFrom_eq (h : t.Behind active r) (hr : ∀ name, r ≠ .control name)
    (hfuel : fuel + active.length = t.depth) : t.timeFrom fuel active r owner =
      if active.contains r then .error (circular owner r)
      else
        match t.pointOf? r with
        | none => .error (unknown owner r)
        | some (.absolute value) => .ok value
        | some (.control name) => t.valueOf name r.name
        | some (.relative base distance) => do
          let origin ← t.timeFrom (fuel - 1) (r :: active) base r.name
          return origin + (← t.offset distance r.name) := by
  cases fuel with
  | zero =>
    have := h.length_lt
    omega
  | succ fuel =>
    cases r with
    | control name => exact absurd rfl (hr name)
    | start _ | finish _ | jump _ => rfl

/-- What a reference stands for is found, whatever is being resolved that leads to it. -/
theorem Stands.timeFrom_eq (hx : t.Stands r x) : ∀ {fuel active owner}, t.Behind active r →
    fuel + active.length = t.depth → t.timeFrom fuel active r owner = .ok x := by
  induction hx with
  | control h =>
    intro fuel active owner _ _
    rw [timeFrom, valueOf_eq_ok.2 h]
  | absolute h =>
    intro fuel active owner hbehind hfuel
    have hmem := hbehind.not_mem (Stands.absolute h).grounded
    rw [Timeline.timeFrom_eq hbehind (ne_control_of_pointOf? h) hfuel, if_neg (by simpa using hmem), h]
  | named h hvalue =>
    intro fuel active owner hbehind hfuel
    have hmem := hbehind.not_mem (Stands.named h hvalue).grounded
    rw [Timeline.timeFrom_eq hbehind (ne_control_of_pointOf? h) hfuel, if_neg (by simpa using hmem), h]
    exact valueOf_eq_ok.2 hvalue
  | relative h hbase hoffset ih =>
    intro fuel active owner hbehind hfuel
    have hmem := hbehind.not_mem (Stands.relative h hbase hoffset).grounded
    have := hbehind.length_lt
    rw [Timeline.timeFrom_eq hbehind (ne_control_of_pointOf? h) hfuel, if_neg (by simpa using hmem), h]
    refine Except.bind_eq_ok.2 ⟨_, ih (hbehind.cons hmem h) ?_, Except.bind_eq_ok.2 ⟨_, hoffset, rfl⟩⟩
    rw [List.length_cons]
    omega

/-- How the resolution of a reference ends, while others are being resolved. -/
inductive Fate (t : Timeline) (active : List Reference) (r : Reference) : Except Fault Binary64 → Prop
  | found {x : Binary64} (h : t.Stands r x) : Fate t active r (.ok x)
  | unresolved {f : Fault} {b : Reference} (hkind : f.kind = .unresolvedReference) (hground : t.Grounded r)
      (hwalk : Relation.ReflTransGen t.Next r b) (hunknown : t.Unknown b) : Fate t active r (.error f)
  | recursive {f : Fault} {b : Reference} (hkind : f.kind = .recursiveReference)
      (hwalk : Relation.ReflTransGen t.Next r b) (hback : b ∈ active ∨ Relation.TransGen t.Next b b) :
      Fate t active r (.error f)

theorem fate_valueOf {name : String} (hnext : t.next? r = none)
    (hstands : ∀ value, t.values.get? name = some value → t.Stands r value)
    (hunknown : t.values.get? name = none → t.Unknown r) : t.Fate active r (t.valueOf name owner) := by
  cases hvalue : t.values.get? name with
  | some value =>
    rw [valueOf_eq_ok.2 hvalue]
    exact .found (hstands value hvalue)
  | none =>
    rw [valueOf, hvalue]
    exact .unresolved rfl (grounded_of_next?_eq_none hnext) .refl (hunknown hvalue)

/-- The fate of a point is that of its base, unless its offset is unknown. -/
theorem Fate.relative {base : Reference} {distance : Offset} {origin : Except Fault Binary64}
    (hpoint : t.pointOf? r = some (.relative base distance)) (h : t.Fate (r :: active) base origin) :
    t.Fate active r (do return (← origin) + (← t.offset distance r.name)) := by
  have hnext := next_of_pointOf? hpoint
  cases h with
  | @found x hx =>
    cases hoffset : t.offset distance r.name with
    | ok y => exact .found (.relative hpoint hx hoffset)
    | error f =>
      obtain ⟨hlacks, hkind⟩ := lacks_of_offset hoffset
      exact .unresolved hkind (hx.grounded.of_next hnext) .refl ((unknown_iff hpoint).2 hlacks)
  | unresolved hkind hground hwalk hunknown =>
    exact .unresolved hkind (hground.of_next hnext) (.head hnext hwalk) hunknown
  | @recursive f b hkind hwalk hback =>
    refine .recursive hkind (.head hnext hwalk) ?_
    rcases hback with hmem | hcircle
    · rcases List.mem_cons.1 hmem with rfl | hmem
      · exact .inr (.head' hnext hwalk)
      · exact .inl hmem
    · exact .inr hcircle

theorem fate_timeFrom : ∀ {fuel active r owner}, t.Behind active r → fuel + active.length = t.depth →
    t.Fate active r (t.timeFrom fuel active r owner) := by
  intro fuel
  induction fuel with
  | zero =>
    intro active r owner hbehind hfuel
    have := hbehind.length_lt
    omega
  | succ fuel ih =>
    intro active r owner hbehind hfuel
    by_cases hr : ∃ name, r = .control name
    · obtain ⟨name, rfl⟩ := hr
      rw [timeFrom]
      exact fate_valueOf rfl (fun _ => .control) id
    have hr : ∀ name, r ≠ .control name := fun name h => hr ⟨name, h⟩
    rw [timeFrom_eq hbehind hr hfuel]
    split
    · rename_i hmem
      exact .recursive rfl .refl (.inl (List.contains_iff_mem.1 hmem))
    rename_i hmem
    rw [List.contains_iff_mem] at hmem
    split
    · rename_i hpoint
      exact .unresolved rfl (grounded_of_next?_eq_none (by rw [next?, hpoint])) .refl (unknown_of_pointOf? hr hpoint)
    · rename_i value hpoint
      exact .found (.absolute hpoint)
    · rename_i name hpoint
      exact fate_valueOf (by rw [next?, hpoint]) (fun _ => .named hpoint) (unknown_iff hpoint).2
    · rename_i base distance hpoint
      refine .relative hpoint (ih (hbehind.cons hmem hpoint) ?_)
      rw [List.length_cons]
      omega

theorem fate_timeOf (t : Timeline) (r : Reference) (owner : String) : t.Fate [] r (t.timeOf r owner) :=
  fate_timeFrom (behind_nil t r) rfl

/-! ## Questions -/

/-- A question that is put to a timeline. -/
inductive Query where
  | point (p : TimePoint) (owner : String)
  | reference (r : Reference) (owner : String)
  | start (window : String)
  | finish (window : String)
  | jump (name : String)

def answer (t : Timeline) : Query → Except Fault Binary64
  | .point p owner => t.resolve p owner
  | .reference r owner => t.timeOf r owner
  | .start window => t.startOf window
  | .finish window => t.finishOf window
  | .jump name => t.jumpTime name

/-- The references that a question leads to, one after the other. -/
def trail (t : Timeline) (q : Query) : Nat → Option Reference
  | 0 =>
    match q with
    | .point (.relative base _) _ => some base
    | .point _ _ => none
    | .reference r _ => some r
    | .start window => some (.start window)
    | .finish window => some (.finish window)
    | .jump name => some (.jump name)
  | n + 1 => (t.trail q n).bind t.next?

/-- The trail of a question comes to a reference twice. -/
def Repeats (t : Timeline) (q : Query) : Prop :=
  ∃ m n r, m < n ∧ t.trail q m = some r ∧ t.trail q n = some r

/-- The point that a question asks for, or a reference on its trail, needs what is unknown. -/
def Dangles (t : Timeline) (q : Query) : Prop :=
  (∃ p owner, q = .point p owner ∧ t.Lacks p) ∨ ∃ n r, t.trail q n = some r ∧ t.Unknown r

variable {q : Query} {m n : Nat}

theorem trail_of_next (ha : t.trail q n = some a) (h : t.Next a b) : t.trail q (n + 1) = some b := by
  rw [trail, ha]
  exact h

theorem trail_of_walk (ha : t.trail q m = some a) (hwalk : Relation.ReflTransGen t.Next a b) :
    ∃ n, m ≤ n ∧ t.trail q n = some b := by
  induction hwalk with
  | refl => exact ⟨m, le_rfl, ha⟩
  | tail _ hnext ih =>
    obtain ⟨n, hn, hb⟩ := ih
    exact ⟨n + 1, by omega, trail_of_next hb hnext⟩

theorem transGen_of_trail (hmn : m < n) (ha : t.trail q m = some a) :
    ∀ {b}, t.trail q n = some b → Relation.TransGen t.Next a b := by
  induction n, hmn using Nat.le_induction with
  | base =>
    intro b hb
    rw [trail, ha] at hb
    exact .single hb
  | succ n _ ih =>
    intro c hc
    obtain ⟨b, hb, hnext⟩ := Option.bind_eq_some_iff.1 hc
    exact (ih hb).tail hnext

/-- What is on the trail of a question is on the way from its first reference. -/
theorem walk_of_trail (hb : t.trail q n = some b) : ∃ a, t.trail q 0 = some a ∧ Relation.ReflTransGen t.Next a b := by
  induction n generalizing b with
  | zero => exact ⟨b, hb, .refl⟩
  | succ n ih =>
    obtain ⟨c, hc, hnext⟩ := Option.bind_eq_some_iff.1 hb
    obtain ⟨a, ha, hwalk⟩ := ih hc
    exact ⟨a, ha, hwalk.tail hnext⟩

theorem Grounded.of_walk (h : t.Grounded a) (hwalk : Relation.ReflTransGen t.Next a b) : t.Grounded b := by
  induction hwalk with
  | refl => exact h
  | tail _ hnext ih => exact ih.inv hnext

theorem not_repeats_of_grounded (h : ∀ a ∈ t.trail q 0, t.Grounded a) : ¬ t.Repeats q := by
  rintro ⟨m, n, b, hmn, hm, hn⟩
  obtain ⟨a, ha, hwalk⟩ := walk_of_trail hm
  exact not_transGen_of_acc ((h a ha).of_walk hwalk) (transGen_of_trail hmn hm hn)

theorem repeats_of_circle (ha : t.trail q 0 = some a) (hwalk : Relation.ReflTransGen t.Next a b)
    (hcircle : Relation.TransGen t.Next b b) : t.Repeats q := by
  obtain ⟨m, -, hm⟩ := trail_of_walk ha hwalk
  obtain ⟨c, hbc, hcb⟩ := Relation.TransGen.head'_iff.1 hcircle
  obtain ⟨n, hn, hb⟩ := trail_of_walk (trail_of_next hm hbc) hcb
  exact ⟨m, n, b, hn, hm, hb⟩

theorem dangles_of_unknown (ha : t.trail q 0 = some a) (hwalk : Relation.ReflTransGen t.Next a b)
    (hunknown : t.Unknown b) : t.Dangles q := by
  obtain ⟨n, -, hn⟩ := trail_of_walk ha hwalk
  exact .inr ⟨n, b, hn, hunknown⟩

theorem not_dangles_of_stands (hpoint : ∀ p owner, q = .point p owner → ¬ t.Lacks p)
    (h : ∀ a ∈ t.trail q 0, ∃ x, t.Stands a x) : ¬ t.Dangles q := by
  rintro (⟨p, owner, hq, hlacks⟩ | ⟨n, b, hn, hunknown⟩)
  · exact hpoint p owner hq hlacks
  · obtain ⟨a, ha, hwalk⟩ := walk_of_trail hn
    obtain ⟨x, hx⟩ := h a ha
    exact hx.not_unknown_of_walk hwalk hunknown

/-- What the trail of a question says about the answer. -/
inductive Ruling (t : Timeline) (q : Query) : Except Fault Binary64 → Prop
  | time {x : Binary64} (hrepeats : ¬ t.Repeats q) (hdangles : ¬ t.Dangles q) : Ruling t q (.ok x)
  | unresolved {f : Fault} (hkind : f.kind = .unresolvedReference) (hrepeats : ¬ t.Repeats q) (hdangles : t.Dangles q) :
      Ruling t q (.error f)
  | recursive {f : Fault} (hkind : f.kind = .recursiveReference) (hrepeats : t.Repeats q) : Ruling t q (.error f)

/-- A failure on the trail is the answer; otherwise the question goes on with the time of its first reference. -/
theorem ruling_of_fate {origin : Except Fault Binary64} {go : Binary64 → Except Fault Binary64}
    (hr : t.trail q 0 = some r) (h : t.Fate [] r origin) (hgo : ∀ x, t.Stands r x → t.Ruling q (go x)) :
    t.Ruling q (origin >>= go) := by
  cases h with
  | found hx => exact hgo _ hx
  | unresolved hkind hground hwalk hunknown =>
    refine .unresolved hkind (not_repeats_of_grounded fun a ha => ?_) (dangles_of_unknown hr hwalk hunknown)
    cases hr.symm.trans ha
    exact hground
  | recursive hkind hwalk hback => exact .recursive hkind (repeats_of_circle hr hwalk (by simpa using hback))

theorem Stands.ruling (hr : t.trail q 0 = some r) (hx : t.Stands r x)
    (hpoint : ∀ p owner, q = .point p owner → ¬ t.Lacks p) (y : Binary64) : t.Ruling q (.ok y) := by
  refine .time (not_repeats_of_grounded fun a ha => ?_) (not_dangles_of_stands hpoint fun a ha => ?_)
  · cases hr.symm.trans ha
    exact hx.grounded
  · cases hr.symm.trans ha
    exact ⟨x, hx⟩

theorem ruling_reference (hr : t.trail q 0 = some r) (hpoint : ∀ p owner, q ≠ .point p owner) (owner : String) :
    t.Ruling q (t.timeOf r owner) := by
  rw [← bind_pure (t.timeOf r owner)]
  exact ruling_of_fate hr (t.fate_timeOf r owner) fun x hx =>
    hx.ruling hr (fun p owner h => absurd h (hpoint p owner)) x

theorem ruling_point (t : Timeline) (p : TimePoint) (owner : String) :
    t.Ruling (.point p owner) (t.resolve p owner) := by
  cases p with
  | absolute value =>
    refine .time (not_repeats_of_grounded nofun) (not_dangles_of_stands ?_ nofun)
    rintro _ _ ⟨⟩
    exact id
  | control name =>
    rw [resolve]
    cases hvalue : t.valueOf name owner with
    | error f =>
      obtain ⟨hlacks, hkind⟩ := lacks_of_valueOf hvalue
      exact .unresolved hkind (not_repeats_of_grounded nofun) (.inl ⟨_, _, rfl, hlacks⟩)
    | ok x =>
      refine .time (not_repeats_of_grounded nofun) (not_dangles_of_stands ?_ nofun)
      rintro _ _ ⟨⟩ hlacks
      cases (valueOf_eq_ok.1 hvalue).symm.trans hlacks
  | relative base distance =>
    refine ruling_of_fate rfl (t.fate_timeOf base owner) fun x hx => ?_
    cases hoffset : t.offset distance owner with
    | error f =>
      obtain ⟨hlacks, hkind⟩ := lacks_of_offset hoffset
      refine .unresolved hkind (not_repeats_of_grounded ?_) (.inl ⟨_, _, rfl, hlacks⟩)
      rintro _ ⟨⟩
      exact hx.grounded
    | ok y =>
      refine hx.ruling rfl ?_ _
      rintro _ _ ⟨⟩
      exact not_lacks_of_offset hoffset

theorem ruling_answer (t : Timeline) (q : Query) : t.Ruling q (t.answer q) := by
  cases q with
  | point p owner => exact t.ruling_point p owner
  | reference r owner => exact ruling_reference rfl (fun _ _ h => by cases h) owner
  | start _ | finish _ | jump _ => exact ruling_reference rfl (fun _ _ h => by cases h) _

end Timeline

namespace Resolver

variable {t : Timeline} {active : List Reference} {r : Reference} {owner : String} {known : List (Reference × Binary64)}
  {v : Resolver}

/-- All times of a list are those which the references stand for. -/
def Right (t : Timeline) (known : List (Reference × Binary64)) : Prop := ∀ e ∈ known, t.Stands e.1 e.2

theorem Right.stands (h : Right t known) {x : Binary64} (hx : known? known r = some x) : t.Stands r x := by
  obtain ⟨e, he, rfl⟩ := Option.map_eq_some_iff.1 hx
  have hr : e.1 = r := by simpa using List.find?_some he
  rw [← hr]
  exact h e (List.mem_of_find?_eq_some he)

@[simp] theorem enter_timeline (v : Resolver) (r : Reference) : (v.enter r).timeline = v.timeline := rfl

@[simp] theorem enter_active (v : Resolver) (r : Reference) : (v.enter r).active = r :: v.active := rfl

@[simp] theorem remember_timeline (v : Resolver) (r : Reference) (answer : Except Fault Binary64) :
    (v.remember r answer).timeline = v.timeline := by
  cases answer <;> rfl

@[simp] theorem remember_active (v : Resolver) (r : Reference) (answer : Except Fault Binary64) :
    (v.remember r answer).active = v.active := by
  cases answer <;> rfl

/-- What has been entered is left again. -/
theorem filter_active (hr : ¬ active.contains r) : ((r :: active).filter fun a => !a == r) = active := by
  rw [List.contains_iff_mem] at hr
  rw [List.filter_cons_of_neg (by simp), List.filter_eq_self]
  intro a ha
  have hne : a ≠ r := by
    rintro rfl
    exact hr ha
  simpa using hne

/-- The resolver is as it was, but for the times it remembers. -/
structure Restored (v : Resolver) (w : Resolver) : Prop where
  timeline : w.timeline = v.timeline
  active : w.active = v.active

theorem restored_conclude {answer : Except Fault Binary64 × Resolver} (hr : ¬ v.active.contains r)
    (h : Restored (v.enter r) answer.2) : Restored v (conclude r answer).2 where
  timeline := by
    rw [conclude, leave, remember_timeline, h.timeline, enter_timeline]
  active := by
    rw [conclude, leave, remember_active, h.active, enter_active, filter_active hr]

/-- Whether a reference gets a time or not, nothing stays behind among those that are being resolved. -/
theorem restored_timeOf (v : Resolver) (r : Reference) (owner : String) : Restored v (v.timeOf r owner).2 := by
  fun_induction timeOf v r owner with
  | case1 | case2 | case3 => exact ⟨rfl, rfl⟩
  | case4 v owner r hr hknown hmem ih =>
    refine restored_conclude hmem ?_
    split
    case h_4 base distance hpoint => exact ih base distance hpoint
    all_goals exact ⟨rfl, rfl⟩

theorem conclude_plain {answer : Except Fault Binary64 × Resolver} {plain : Except Fault Binary64}
    (hfate : t.Fate active r plain) (h : answer.1 = plain ∧ Right t answer.2.known) :
    (conclude r answer).1 = plain ∧ Right t (conclude r answer).2.known := by
  obtain ⟨rfl, hright⟩ := h
  refine ⟨rfl, ?_⟩
  rw [conclude, leave]
  cases hanswer : answer.1 with
  | error f => exact hright
  | ok x =>
    rw [hanswer] at hfate
    cases hfate with
    | found hstands =>
      intro e he
      rcases List.mem_append.1 he with he | he
      · exact hright e he
      · rw [List.mem_singleton.1 he]
        exact hstands

/-- What is remembered changes no answer, and what is added to it is right. -/
theorem timeOf_plain : ∀ {fuel} {v : Resolver} {r owner}, Right v.timeline v.known → v.timeline.Behind v.active r →
    fuel + v.active.length = v.timeline.depth →
    (v.timeOf r owner).1 = v.timeline.timeFrom fuel v.active r owner ∧
      Right v.timeline (v.timeOf r owner).2.known := by
  intro fuel
  induction fuel with
  | zero =>
    intro v r owner _ hbehind hfuel
    have := hbehind.length_lt
    omega
  | succ fuel ih =>
    intro v r owner hright hbehind hfuel
    by_cases hr : ∃ name, r = .control name
    · obtain ⟨name, rfl⟩ := hr
      rw [timeOf, Timeline.timeFrom]
      exact ⟨rfl, hright⟩
    have hr : ∀ name, r ≠ .control name := fun name h => hr ⟨name, h⟩
    rw [timeOf.eq_2 _ _ _ hr]
    split
    · rename_i x hx
      rw [(hright.stands hx).timeFrom_eq hbehind hfuel]
      exact ⟨rfl, hright⟩
    have hfate : v.timeline.Fate v.active r (v.timeline.timeFrom (fuel + 1) v.active r owner) :=
      Timeline.fate_timeFrom hbehind hfuel
    rw [Timeline.timeFrom_eq hbehind hr hfuel] at hfate ⊢
    by_cases hmem : v.active.contains r
    · rw [if_pos hmem, if_pos hmem]
      exact ⟨rfl, hright⟩
    rw [if_neg hmem] at hfate ⊢
    rw [if_neg hmem]
    have hmem : r ∉ v.active := fun h => hmem (List.contains_iff_mem.2 h)
    refine conclude_plain hfate ?_
    split <;> rename_i hpoint
    case h_4 base distance =>
      have hlevel : fuel + (v.enter r).active.length = v.timeline.depth := by
        rw [enter_active, List.length_cons]
        omega
      obtain ⟨horigin, hright⟩ := @ih (v.enter r) base r.name hright (hbehind.cons hmem hpoint) hlevel
      simp only [hpoint, Nat.add_sub_cancel, horigin, enter_timeline, enter_active]
      exact ⟨trivial, hright⟩
    all_goals
      simp only [hpoint]
      exact ⟨trivial, hright⟩

/-! ## Series of questions -/

/-- The answer, and the resolver afterwards. -/
def ask (v : Resolver) : Timeline.Query → Except Fault Binary64 × Resolver
  | .point p owner => v.resolve p owner
  | .reference r owner => v.timeOf r owner
  | .start window => v.startOf window
  | .finish window => v.finishOf window
  | .jump name => v.jumpTime name

/-- The answers to a series of questions, each put to the resolver that the one before has left. -/
def answers : Resolver → List Timeline.Query → List (Except Fault Binary64)
  | _, [] => []
  | v, q :: qs => (v.ask q).1 :: (v.ask q).2.answers qs

/-- The resolver after a series of questions. -/
def after (v : Resolver) (qs : List Timeline.Query) : Resolver := qs.foldl (fun v q => (v.ask q).2) v

/-- A question, answered or not, leaves nothing behind among the references that are being resolved. -/
theorem restored_ask (v : Resolver) (q : Timeline.Query) : Restored v (v.ask q).2 := by
  cases q with
  | point p owner =>
    cases p with
    | absolute _ | control _ => exact ⟨rfl, rfl⟩
    | relative base distance => exact restored_timeOf v base owner
  | reference r owner => exact restored_timeOf v r owner
  | start _ | finish _ | jump _ => exact restored_timeOf v _ _

theorem restored_after (qs : List Timeline.Query) : ∀ v : Resolver, Restored v (v.after qs) := by
  induction qs with
  | nil => exact fun v => ⟨rfl, rfl⟩
  | cons q qs ih =>
    intro v
    have hask := restored_ask v q
    have hrest := ih (v.ask q).2
    exact ⟨hrest.timeline.trans hask.timeline, hrest.active.trans hask.active⟩

/-- What a resolver remembers is right, and it is in the middle of nothing. -/
structure Sound (v : Resolver) : Prop where
  right : Right v.timeline v.known
  idle : v.active = []

theorem Sound.timeOf (h : v.Sound) (r : Reference) (owner : String) :
    (v.timeOf r owner).1 = v.timeline.timeOf r owner ∧ (v.timeOf r owner).2.Sound := by
  have hbehind : v.timeline.Behind v.active r := by
    rw [h.idle]
    exact Timeline.behind_nil v.timeline r
  have hfuel : v.timeline.depth + v.active.length = v.timeline.depth := by
    rw [h.idle, List.length_nil, Nat.add_zero]
  obtain ⟨hanswer, hright⟩ := timeOf_plain h.right hbehind hfuel
  have hrestored := restored_timeOf v r owner
  refine ⟨?_, ?_, hrestored.active.trans h.idle⟩
  · rw [hanswer, h.idle, Timeline.timeOf]
  · rw [hrestored.timeline]
    exact hright

/-- A question gets the answer that needs no memory, and leaves a resolver that is as good as the one before. -/
theorem Sound.ask (h : v.Sound) (q : Timeline.Query) : (v.ask q).1 = v.timeline.answer q ∧ (v.ask q).2.Sound := by
  cases q with
  | point p owner =>
    cases p with
    | absolute _ | control _ => exact ⟨rfl, h⟩
    | relative base distance =>
      obtain ⟨horigin, hsound⟩ := h.timeOf base owner
      refine ⟨?_, hsound⟩
      simp only [Resolver.ask, resolve, Timeline.answer, Timeline.resolve, horigin]
  | reference r owner => exact h.timeOf r owner
  | start _ | finish _ | jump _ => exact h.timeOf _ _

theorem Sound.answers (qs : List Timeline.Query) : ∀ {v : Resolver}, v.Sound →
    v.answers qs = qs.map v.timeline.answer := by
  induction qs with
  | nil =>
    intro v _
    rfl
  | cons q qs ih =>
    intro v h
    obtain ⟨hanswer, hsound⟩ := h.ask q
    rw [Resolver.answers, hanswer, ih hsound, (restored_ask v q).timeline, List.map_cons]

theorem sound_ofVariant {s : Sequence} {variant : Binary64} (h : ofVariant s variant = .ok v) : v.Sound := by
  obtain ⟨t, -, ht⟩ := Except.bind_eq_ok.1 h
  cases ht
  exact ⟨nofun, rfl⟩

/-- In every series of questions to one resolver, failed ones included, each gets the answer that a new resolver gives
to it alone, and no reference stays behind as one that is being resolved. The answer is a recursive reference exactly if
the trail of the question comes to a reference twice, and otherwise an unresolved one exactly if something on it is
unknown. -/
theorem answers_fresh {s : Sequence} {variant : Binary64} {v : Resolver} (hv : ofVariant s variant = .ok v) :
    (∀ qs, (v.answers qs = qs.map fun q => (v.ask q).1) ∧ (v.after qs).active = []) ∧
      ∀ q, ((∃ f, (v.ask q).1 = .error f ∧ f.kind = .recursiveReference) ↔ v.timeline.Repeats q) ∧
        (¬ v.timeline.Repeats q →
          ((∃ f, (v.ask q).1 = .error f ∧ f.kind = .unresolvedReference) ↔ v.timeline.Dangles q) ∧
            (¬ v.timeline.Dangles q → ∃ time, (v.ask q).1 = .ok time)) := by
  have hsound := sound_ofVariant hv
  refine ⟨fun qs => ⟨?_, (restored_after qs v).active.trans hsound.idle⟩, fun q => ?_⟩
  · rw [hsound.answers qs]
    exact List.map_congr_left fun q _ => (hsound.ask q).1.symm
  · have hruling := v.timeline.ruling_answer q
    rw [(hsound.ask q).1]
    generalize v.timeline.answer q = a at hruling
    cases hruling with
    | time hrepeats hdangles => simp [hrepeats, hdangles]
    | unresolved hkind hrepeats hdangles => simp [hkind, hrepeats, hdangles]
    | recursive hkind hrepeats => simp [hkind, hrepeats]

/-- Two windows that are given by each other, one that is given by an unknown variable, and a jump that is given by one
of the two. -/
def tangled : Sequence where
  name := "tangled"
  length := 40
  shots := 1
  variants := 1
  hardware := default
  controls := []
  channels := [
    ⟨"laser", [⟨"early", .relative (.finish "late") (.absolute 2), .absolute 9⟩,
      .lasting "late" (.relative (.start "early") (.absolute 4)) (.absolute 1)], .output⟩,
    ⟨"detector", [⟨"gate", .absolute 3, .relative (.start "gate") (.control "lag")⟩],
      .control [⟨"choose", .relative (.start "late") (.absolute 1), .terminate⟩]⟩]

theorem answers_tangled :
    ∃ v, ofVariant tangled 0 = .ok v ∧
      (∀ qs, (v.answers qs = qs.map fun q => (v.ask q).1) ∧ (v.after qs).active = []) ∧
      (∃ f, (v.ask (.jump "choose")).1 = .error f ∧ f.kind = .recursiveReference) ∧
      (∃ f, (v.ask (.finish "gate")).1 = .error f ∧ f.kind = .unresolvedReference) ∧
      ∃ time, (v.ask (.point (.relative (.start "gate") (.absolute 2)) "probe")).1 = .ok time := by
  let t : Timeline := ⟨tangled, []⟩
  have hv : ofVariant tangled 0 = .ok ⟨t, [], []⟩ := rfl
  have hall := answers_fresh hv
  have hstart : t.Stands (.start "gate") 3 := .absolute (by decide)
  have hfinish : t.pointOf? (.finish "gate") = some (.relative (.start "gate") (.control "lag")) := by decide
  -- from the jump to `late`, on to `early`, to the end of `late` and to its start again
  have hcircle : t.Repeats (.jump "choose") := ⟨1, 4, .start "late", by decide, by decide, by decide⟩
  have hgate : ¬ t.Repeats (.finish "gate") := by
    refine Timeline.not_repeats_of_grounded ?_
    rintro _ ⟨⟩
    exact hstart.grounded.of_next (Timeline.next_of_pointOf? hfinish)
  have hlag : t.Dangles (.finish "gate") := .inr ⟨0, _, rfl, (Timeline.unknown_iff hfinish).2 rfl⟩
  have hprobe : ¬ t.Repeats (.point (.relative (.start "gate") (.absolute 2)) "probe") ∧
      ¬ t.Dangles (.point (.relative (.start "gate") (.absolute 2)) "probe") := by
    refine ⟨Timeline.not_repeats_of_grounded ?_, Timeline.not_dangles_of_stands ?_ ?_⟩
    · rintro _ ⟨⟩
      exact hstart.grounded
    · rintro _ _ ⟨⟩
      exact id
    · rintro _ ⟨⟩
      exact ⟨3, hstart⟩
  exact ⟨_, hv, hall.1, (hall.2 _).1.2 hcircle, ((hall.2 _).2 hgate).1.2 hlag, ((hall.2 _).2 hprobe.1).2 hprobe.2⟩

end Resolver

end PulseSequencer
