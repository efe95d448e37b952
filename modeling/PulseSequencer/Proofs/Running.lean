import PulseSequencer.Proofs.Inherit
import PulseSequencer.Proofs.Merge

/-!
# The running state

When every SET has taken its open lines from the SET before it, each carries the state that all SETs up to it have left
on those lines: a line has the value that the last SET to drive it gave it.

* `Drive.latest`, `Drive.Runs` : the last drive that has a bit, and a drive that carries what the drives up to it leave;
* `Drive.Runs.inherit` : the next drive carries it on;
* `Draft.runs_of_chain` : so do all SETs of a chain;
* `Draft.inheritFrom_of_chain`, `Board.inheritDrive_inheritDrive` : inheriting again changes nothing;
* `Draft.Carried` : what a pass makes of a draft.
-/

namespace PulseSequencer

namespace Drive

/-- The last drive that has bit `i` in its mask. -/
def latest (ds : List Drive) (i : Nat) : Option Drive := ds.reverse.find? fun e => Bits.bit e.mask i

theorem latest_append_singleton (ds : List Drive) (d : Drive) (i : Nat) :
    latest (ds ++ [d]) i = if Bits.bit d.mask i then some d else latest ds i := by
  rw [latest, List.reverse_append, List.reverse_singleton, List.singleton_append, List.find?_cons, latest]
  cases Bits.bit d.mask i <;> rfl

theorem any_of_latest {ds : List Drive} {i : Nat} {e : Drive} (h : latest ds i = some e) :
    (ds.any fun e => Bits.bit e.mask i) = true := by
  have hbit := List.find?_some h
  exact List.any_eq_true.2 ⟨e, List.mem_reverse.1 (List.mem_of_find?_eq_some h), hbit⟩

/-- The drive `d` comes after the drives `ds`. As `r` it has in addition the bits of `lines` that one of them has, and
every bit of `lines` has the value of the last drive that has it. -/
structure Runs (lines : Int) (ds : List Drive) (d r : Drive) : Prop where
  mask : ∀ i,
    Bits.bit r.mask i = (Bits.bit d.mask i || (Bits.bit lines i && (ds ++ [d]).any fun e => Bits.bit e.mask i))
  value : ∀ i e, Bits.bit lines i = true → latest (ds ++ [d]) i = some e → Bits.bit r.value i = Bits.bit e.value i
  own : ∀ i, Bits.bit d.mask i = true → Bits.bit r.value i = Bits.bit d.value i
  outside : ∀ i, Bits.bit lines i = false → Bits.bit r.value i = Bits.bit d.value i
  inside : r.Inside
  polarity : r.polarity = d.polarity
  marker : r.marker = d.marker

namespace Runs

variable {lines : Int} {ds : List Drive} {d e r : Drive}

/-- The first drive has nothing to take. -/
theorem first (hd : d.Inside) : Runs lines [] d d := by
  refine ⟨fun i => ?_, fun i e _ he => ?_, fun _ _ => rfl, fun _ _ => rfl, hd, rfl, rfl⟩
  · rw [List.nil_append, List.any_cons, List.any_nil]
    cases Bits.bit d.mask i <;> simp
  · rw [List.nil_append] at he
    rw [List.mem_singleton.1 (List.mem_reverse.1 (List.mem_of_find?_eq_some he))]

/-- On the lines it has all bits that a drive up to it has. -/
theorem bit_mask (h : Runs lines ds d r) {i : Nat} (hi : Bits.bit lines i = true) :
    Bits.bit r.mask i = (ds ++ [d]).any fun e => Bits.bit e.mask i := by
  rw [h.mask, hi, List.any_append, List.any_cons, List.any_nil]
  cases Bits.bit d.mask i <;> simp

/-- The next drive takes from it what it leaves open. -/
theorem inherit (h : Runs lines ds d r) (he : e.Inside) :
    Runs lines (ds ++ [d]) e (Board.inheritDrive e r lines) := by
  refine ⟨fun i => ?_, fun i x hi hx => ?_, fun i hi => ?_, fun i hi => ?_, Board.inside_inheritDrive he lines, rfl,
    rfl⟩
  · rw [Board.bit_mask_inheritDrive]
    cases hi : Bits.bit lines i with
    | false => rfl
    | true =>
      rw [h.bit_mask hi, @List.any_append _ _ (ds ++ [d]) [e], List.any_cons, List.any_nil]
      cases Bits.bit e.mask i <;> simp
  · rw [latest_append_singleton] at hx
    rw [Board.bit_value_inheritDrive, hi]
    cases hm : Bits.bit e.mask i with
    | true =>
      rw [hm] at hx
      cases hx
      simp
    | false =>
      rw [hm] at hx
      have hopen : Bits.bit e.value i = false := Bool.eq_false_iff.2 fun hv => by
        rw [he i hv] at hm
        cases hm
      rw [hopen, h.bit_mask hi, any_of_latest hx, h.value i x hi hx]
      simp
  · rw [Board.bit_value_inheritDrive, hi]
    simp
  · rw [Board.bit_value_inheritDrive, hi]
    simp

end Runs

end Drive

/-- A drive that has inherited has nothing left to take. -/
theorem Board.inheritDrive_inheritDrive (d e : Drive) (m : Int) :
    inheritDrive (inheritDrive d e m) e m = inheritDrive d e m := by
  unfold inheritDrive
  simp only [Drive.mk.injEq, and_true]
  refine ⟨Bits.or_eq_or fun i => ?_, Bits.or_eq_or fun i => ?_⟩
  · simp only [Bits.bit_or, Bits.bit_and, Bits.bit_without]
    cases Bits.bit d.mask i <;> cases Bits.bit e.mask i <;> cases Bits.bit m i <;> simp
  · simp only [Bits.bit_or, Bits.bit_and, Bits.bit_without]
    cases Bits.bit d.mask i <;> cases Bits.bit e.mask i <;> cases Bits.bit m i <;> simp

namespace Draft

/-! ## Chains of SETs -/

/-- SETs that have taken their open lines from each other carry what the SETs up to them leave. -/
theorem runs_of_chain {lines : Int} {b b' : Board} {ls : List Label} (hfirst : ∀ l ∈ ls.head?, b'.get l = b.get l)
    (hin : ∀ l ∈ ls, (b.get l).drive.Inside)
    (hchain : ls.IsChain fun x l => (b'.get l).drive = Board.inheritDrive (b.get l).drive (b'.get x).drive lines) :
    ∀ {k : Nat} {l : Label}, ls[k]? = some l →
      Drive.Runs lines ((ls.take k).map fun m => (b.get m).drive) (b.get l).drive (b'.get l).drive := by
  intro k
  induction k with
  | zero =>
    intro l hl
    rw [hfirst l (List.head?_eq_getElem?.trans hl)]
    exact .first (hin l (List.mem_of_getElem? hl))
  | succ k ih =>
    intro l hl
    obtain ⟨hk, rfl⟩ := List.getElem?_eq_some_iff.1 hl
    have hx : ls[k]? = some ls[k] := List.getElem?_eq_getElem _
    rw [hchain.getElem k hk, List.take_add_one, hx, Option.toList_some, List.map_append]
    exact (ih hx).inherit (hin _ (List.getElem_mem _))

/-- A SET that has what it can take from the one before it stays as it is. -/
theorem inheritFrom_of_chain {mask : Int} {b : Board} {ls : List Label} (hls : ∀ l ∈ ls, (b.get l).isSet = true) :
    ∀ {p : Label}, List.IsChain (fun x l => Board.inheritDrive (b.get l).drive (b.get x).drive mask = (b.get l).drive)
      (p :: ls) → inheritFrom mask p b ls = b := by
  induction ls with
  | nil => exact fun _ => rfl
  | cons l ls ih =>
    intro p hchain
    obtain ⟨hl, hchain⟩ := List.isChain_cons_cons.1 hchain
    have hself : b.inherit l p mask = b := Board.modify_eq_self (by
      rw [hl]
      exact Instruction.withDrive_drive (hls l List.mem_cons_self))
    rw [inheritFrom, hself]
    exact ih (fun m hm => hls m (List.mem_cons_of_mem _ hm)) hchain

/-! ## The whole draft -/

/-- The draft `d'` is `d` in order, with every SET carrying what the SETs up to it leave on the lines, and carrying it
on changes nothing more. -/
structure Carried (lines : Int) (d d' : Draft) : Prop where
  list : d'.list = sorted d.board d.list
  runs : ∀ k l, d.sort.sets[k]? = some l →
    Drive.Runs lines ((d.sort.sets.take k).map fun m => (d.board.get m).drive) (d.board.get l).drive
      (d'.board.get l).drive
  others : ∀ l, d'.board.get l = d.board.get l ∨
    (l ∈ d.sets ∧ d'.board.get l = (d.board.get l).withDrive (d'.board.get l).drive)
  again : d'.inheritOutputs lines = .ok (d'.supersede d'.list)

/-- A pass fails if the first SET is not at tick 0. -/
theorem inheritOutputs_error_iff {d : Draft} {lines : Int} :
    (∃ f, d.inheritOutputs lines = .error f) ↔ ∃ l ∈ d.sort.sets.head?, d.board.time l ≠ 0 := by
  unfold inheritOutputs
  simp only [board_sort]
  cases hsets : d.sort.sets with
  | nil => simp
  | cons first rest =>
    by_cases hzero : d.board.time first = 0 <;> simp [hzero]

/-- A draft in order stays as it is if its first SET is at tick 0 and each has what it can take from the one before
it. -/
theorem inheritOutputs_of_chain {d : Draft} {lines : Int} (hsorted : sorted d.board d.list = d.list)
    (hfirst : ∀ l ∈ d.sets.head?, d.board.time l = 0)
    (hchain : List.IsChain (fun x l => Board.inheritDrive (d.board.get l).drive (d.board.get x).drive lines =
      (d.board.get l).drive) d.sets) : d.inheritOutputs lines = .ok (d.supersede d.list) := by
  have hsort : d.sort = d.supersede d.list := by rw [sort, hsorted]
  have hisSet : ∀ l ∈ d.sets, (d.board.get l).isSet = true := fun l hl => (mem_sets.1 hl).2
  unfold inheritOutputs
  simp only [hsort, show (d.supersede d.list).sets = d.sets from rfl,
    show (d.supersede d.list).board = d.board from rfl]
  cases hsets : d.sets with
  | nil => rfl
  | cons first rest =>
    rw [hsets] at hfirst hchain hisSet
    simp only [hfirst first rfl, ne_eq, not_true_eq_false, if_false,
      inheritFrom_of_chain (fun l hl => hisSet l (List.mem_cons_of_mem _ hl)) hchain]
    rfl

theorem carried_of_inheritOutputs {d d' : Draft} {lines : Int} (hin : d.SetsInside) (hnodup : d.sets.Nodup)
    (h : d.inheritOutputs lines = .ok d') : Carried lines d d' := by
  obtain ⟨hlist, -⟩ := inheritOutputs_eq_ok h
  obtain ⟨hred, hothers, hfirst, hchain⟩ := chain_of_inheritOutputs hnodup h
  have hmem : ∀ l ∈ d.sort.sets, l ∈ d.sets := fun l hl => ((perm_sorted d.board d.list).filter _).mem_iff.1 hl
  have hsorted : sorted d'.board d'.list = d'.list := by rw [hlist, hred.sorted_eq, sorted_sorted]
  have hsets : d'.sets = d.sort.sets := by
    rw [sets, hlist]
    exact List.filter_congr fun l _ => hred.sameLinks.isSet l
  refine ⟨hlist, fun k l => runs_of_chain (fun l hl => (hfirst l hl).2) (fun l hl => hin l (hmem l hl)) hchain,
    fun l => ?_, inheritOutputs_of_chain hsorted ?_ ?_⟩
  · by_cases hl : l ∈ d.sets
    · rcases hred.get l with hsame | ⟨-, e, he⟩
      · exact .inl hsame
      · exact .inr ⟨hl, by rw [he, Instruction.drive_withDrive]⟩
    · exact .inl (hothers l hl)
  · rw [hsets]
    intro l hl
    rw [hred.time_eq, (hfirst l hl).1]
  · rw [hsets]
    refine hchain.imp fun x l hl => ?_
    rw [hl, Board.inheritDrive_inheritDrive]

/-- A pass fails if and only if the first SET is not at tick 0. Otherwise distinct SETs carry the running state, and a
second pass changes nothing. -/
theorem inheritOutputs_runs {d : Draft} {lines : Int}
    (hin : ∀ l ∈ d.sets, Bits.without (d.board.get l).drive.value (d.board.get l).drive.mask = 0) :
    ((∃ f, d.inheritOutputs lines = .error f) ↔ ∃ l ∈ d.sort.sets.head?, d.board.time l ≠ 0) ∧
      (d.sets.Nodup → (∀ l ∈ d.sort.sets.head?, d.board.time l = 0) →
        ∃ d', d.inheritOutputs lines = .ok d' ∧ Carried lines d d') := by
  refine ⟨inheritOutputs_error_iff, fun hnodup hzero => ?_⟩
  cases hrun : d.inheritOutputs lines with
  | error f =>
    obtain ⟨l, hl, hne⟩ := inheritOutputs_error_iff.1 ⟨f, hrun⟩
    exact absurd (hzero l hl) hne
  | ok d' => exact ⟨d', rfl, carried_of_inheritOutputs (fun l hl => Bits.without_eq_zero.1 (hin l hl)) hnodup hrun⟩

/-- SETs of one line each, out of order, with a jump between them. -/
def relay : Draft where
  board := ⟨#[⟨0, none, none, [3], .set ⟨1, 1, 0, false⟩⟩, ⟨5, none, none, [], .set ⟨0, 4, 0, false⟩⟩,
    ⟨3, some "flash", none, [], .set ⟨2, 2, 0, true⟩⟩, ⟨4, none, none, [], .jump true 0 0 0⟩,
    ⟨8, none, none, [], .stop⟩]⟩
  list := [1, 3, 2, 0, 4]
  past := []

theorem relay_runs :
    (∀ l ∈ relay.sets, Bits.without (relay.board.get l).drive.value (relay.board.get l).drive.mask = 0) ∧
      relay.sets.Nodup ∧ (∀ l ∈ relay.sort.sets.head?, relay.board.time l = 0) ∧
      ∃ d', relay.inheritOutputs 7 = .ok d' ∧ Carried 7 relay d' ∧ (d'.board.get 1).drive.value = 3 ∧
        (d'.board.get 1).drive.mask = 7 := by
  have hin : ∀ l ∈ relay.sets, Bits.without (relay.board.get l).drive.value (relay.board.get l).drive.mask = 0 := by
    decide +kernel
  have hnodup : relay.sets.Nodup := by decide +kernel
  have hfirst : ∀ l ∈ relay.sort.sets.head?, relay.board.time l = 0 := by decide +kernel
  have hlast : (relay.inheritOutputs 7).toOption.map (fun d' => ((d'.board.get 1).drive.value,
      (d'.board.get 1).drive.mask)) = some (3, 7) := by decide +kernel
  obtain ⟨d', hrun, hcarried⟩ := (inheritOutputs_runs hin).2 hnodup hfirst
  rw [hrun] at hlast
  obtain ⟨hvalue, hmask⟩ := Prod.mk.inj (Option.some.inj hlast)
  exact ⟨hin, hnodup, hfirst, d', hrun, hcarried, hvalue, hmask⟩

/-- The SET at the start is once more the last one. -/
def doubled : Draft where
  board := ⟨#[⟨0, none, none, [], .set ⟨1, 1, 0, false⟩⟩, ⟨0, none, none, [], .set ⟨0, 2, 0, false⟩⟩,
    ⟨0, none, none, [], .set ⟨4, 4, 0, false⟩⟩]⟩
  list := [0, 1, 2, 0]
  past := []

/-- It inherits at its second place, and the SET after its first place inherits from it in a second pass. -/
theorem doubled_not_carried :
    (∀ l ∈ doubled.sets, Bits.without (doubled.board.get l).drive.value (doubled.board.get l).drive.mask = 0) ∧
      (∀ l ∈ doubled.sort.sets.head?, doubled.board.time l = 0) ∧
      ∃ d' d'', doubled.inheritOutputs 7 = .ok d' ∧ d'.inheritOutputs 7 = .ok d'' ∧
        (d'.board.get 1).drive.mask = 3 ∧ (d''.board.get 1).drive.mask = 7 ∧ ¬ Carried 7 doubled d' := by
  have hmasks : ((doubled.inheritOutputs 7).toOption.bind fun d' => (d'.inheritOutputs 7).toOption.map fun d'' =>
      ((d'.board.get 1).drive.mask, (d''.board.get 1).drive.mask)) = some (3, 7) := by decide +kernel
  obtain ⟨d', hrun, hmasks⟩ := Option.bind_eq_some_iff.1 hmasks
  obtain ⟨d'', hagain, hmasks⟩ := Option.map_eq_some_iff.1 hmasks
  rw [Except.toOption_eq_some] at hrun hagain
  obtain ⟨hmask, hmask'⟩ := Prod.mk.inj hmasks
  refine ⟨by decide +kernel, by decide +kernel, d', d'', hrun, hagain, hmask, hmask', fun hcarried => ?_⟩
  have hsame : d'' = d'.supersede d'.list := Except.ok.inj (hagain.symm.trans hcarried.again)
  rw [hsame, show (d'.supersede d'.list).board = d'.board from rfl, hmask] at hmask'
  cases hmask'

end Draft

end PulseSequencer
