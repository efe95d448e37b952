import PulseSequencer.Proofs.Assembly
import PulseSequencer.Proofs.NormalForm
import PulseSequencer.Proofs.Stages

/-!
# From the placed list to the words

* `Draft.mergeSets_of_increasing` : a merge changes nothing where no two instructions share a tick;
* `Draft.exists_finish` : the passes after placement succeed if there is a SET at tick 0;
* `Draft.Covers.exists_held` : every SET of a filled list drives what a SET of the list drives;
* `Layout.covers_final`, `Layout.scheduled_final`, `Layout.operationAt?_eq` : the final list and its words;
* `Layout.jump_final` : the jumps in it.
-/

namespace PulseSequencer

namespace Draft

theorem mergeSets_of_increasing {d : Draft} (h : d.list.Pairwise fun x y => d.board.time x < d.board.time y)
    (controlMask : Int) : (d.mergeSets controlMask).outcome = .ok (d.supersede d.list) := by
  rw [(normal_of_increasing h).mergeSets_eq]
  rfl

/-! ## Placed drafts -/

/-- Gaps can be filled if the first instruction is a SET at tick 0. -/
theorem exists_fillGaps {d : Draft} (hd : d.Linked) (hin : d.SetsInside)
    (hinc : d.list.Pairwise fun x y => d.board.time x < d.board.time y) (hnonneg : ∀ l ∈ d.list, 0 ≤ d.board.time l)
    (hstart : ∃ l ∈ d.sets, d.board.time l = 0) : ∃ d', d.fillGaps = .ok d' := by
  obtain ⟨s, hs, hzero⟩ := hstart
  obtain ⟨hmem, hset⟩ := mem_sets.1 hs
  have hls : ∀ l ∈ d.list, l < d.board.size ∧ -1 < d.board.time l ∧
      ((d.board.get l).isSet = true → (d.board.get l).drive.Inside) := fun l hl =>
    ⟨hd.valid l hl, by have := hnonneg l hl; omega, fun hset => hin l (mem_sets.2 ⟨hl, hset⟩)⟩
  -- the SET at tick 0 is the first instruction, because no other is that early
  have hfirst : ∀ l ∈ d.list.head?, d.board.time l = -1 + 1 ∧ (d.board.get l).isSet = true := by
    intro l hl
    obtain ⟨rest, hlist⟩ := List.head?_eq_some_iff.1 hl
    have hpair := hinc
    rw [hlist] at hmem hpair
    rcases List.mem_cons.1 hmem with rfl | hmem
    · exact ⟨by omega, hset⟩
    · have := (List.pairwise_cons.1 hpair).1 s hmem
      have := hnonneg l (hlist ▸ List.mem_cons_self)
      omega
  obtain ⟨⟨filled, b⟩, hfill⟩ := fillFrom_ok hls (fun m (hm : m ∈ none) => by cases hm) hinc fun _ => hfirst
  refine ⟨_, Except.bind_eq_ok.2 ⟨(filled, b), ?_, rfl⟩⟩
  rw [sorted_of_increasing hinc]
  exact hfill

/-- The passes after placement succeed if there is a SET at tick 0. -/
theorem exists_finish {d : Draft} (hd : d.Linked) (hin : d.SetsInside)
    (hinc : d.list.Pairwise fun x y => d.board.time x < d.board.time y) (hnonneg : ∀ l ∈ d.list, 0 ≤ d.board.time l)
    (hstart : ∃ l ∈ d.sets, d.board.time l = 0) (lines controlMask : Int) :
    ∃ settled filled final, d.inheritOutputs lines = .ok settled ∧ settled.fillGaps = .ok filled ∧
      (filled.sort.mergeSets controlMask).outcome = .ok final ∧ final.list.length = filled.sort.list.length ∧
      final.Scheduled := by
  obtain ⟨settled, hsettled⟩ : ∃ d', d.inheritOutputs lines = .ok d' :=
    exists_inheritOutputs (fun l hl => hnonneg l (mem_sets.1 hl).1) hstart
  obtain ⟨hlist, hred, hinside⟩ := drives_of_inheritOutputs (R := fun _ e => e.Inside) hd hin
    (fun _ _ _ _ he => Board.inside_inheritDrive he lines) hsettled
  rw [sorted_of_increasing hinc] at hlist
  have hlinked : settled.Linked := hd.of_sameLinks hred.sameLinks (List.Perm.of_eq hlist)
  have hsinc : settled.list.Pairwise fun x y => settled.board.time x < settled.board.time y := by
    simpa only [hlist, hred.time_eq] using hinc
  have hsstart : ∃ l ∈ settled.sets, settled.board.time l = 0 := by
    obtain ⟨l, hl, hzero⟩ := hstart
    refine ⟨l, ?_, by rwa [hred.time_eq]⟩
    rwa [mem_sets, hlist, hred.sameLinks.isSet, ← mem_sets]
  obtain ⟨filled, hfilled⟩ := exists_fillGaps hlinked hinside hsinc
    (fun l hl => by rw [hred.time_eq]; exact hnonneg l (hlist ▸ hl)) hsstart
  obtain ⟨hext, hcovers⟩ := covers_of_fillGaps hlinked.valid hsinc hfilled
  have hscheduled := hcovers.scheduled hext hlinked.valid fun l hl g hg => (hlinked.target l hl g hg).1
  have hfinal : (filled.sort.supersede filled.sort.list).Scheduled := by
    rw [show filled.sort.list = filled.list from sorted_of_increasing hcovers.increasing]
    exact ⟨hscheduled.valid, hscheduled.nonneg, hscheduled.increasing, hscheduled.closed⟩
  have hfinc : filled.sort.list.Pairwise fun x y => filled.sort.board.time x < filled.sort.board.time y :=
    hfinal.increasing
  exact ⟨settled, filled, _, hsettled, hfilled, mergeSets_of_increasing hfinc controlMask, rfl, hfinal⟩

/-! ## What holds the bus -/

theorem getLast?_filter_cons (p : Label → Bool) (x : Label) (xs : List Label) (held : Option Label) :
    ((x :: xs).filter p).getLast?.or held = (xs.filter p).getLast?.or (if p x then some x else held) := by
  cases hp : p x with
  | true =>
    rw [List.filter_cons_of_pos hp, List.getLast?_cons]
    cases (xs.filter p).getLast? <;> rfl
  | false => rw [List.filter_cons_of_neg (by simp [hp])]; rfl

/-- A SET of a filled list drives what the last SET of the list up to it drives. -/
theorem Covers.exists_held {b : Board} {last : Int} {held : Option Label} {ls filled : List Label}
    (h : Covers b last held ls filled) {p : Label → Bool} (hls : ∀ l ∈ ls, p l = (b.get l).isSet)
    (hp : ∀ l, p l = true → l ∈ ls ∨ b.time l ≤ last) : ∀ {i : Nat} {x : Label}, filled[i]? = some x →
      (b.get x).isSet = true → ∃ l, ((filled.take (i + 1)).filter p).getLast?.or held = some l ∧
        (b.get x).drive.value = (b.get l).drive.value := by
  -- what fills a gap is not in the list, its tick being between those of two members
  have hfiller : ∀ {last : Int} {ls rest : List Label} {held : Option Label} {y : Label} {n : Int}, 0 ≤ n →
      (∀ l, p l = true → l ∈ ls ∨ b.time l ≤ last) → b.time y = last + 1 → Covers b (last + 1 + n) held ls rest →
      p y = false := by
    intro last ls rest held y n hn hp hy hrest
    rw [← Bool.not_eq_true]
    intro hpy
    rcases hp y hpy with hmem | hle
    · have := hrest.lt_time y (hrest.subset y hmem)
      omega
    · omega
  induction h with
  | nil => simp
  | @next last held l ls filled htime _ ih =>
    intro i x hx hset
    have hl := hls l List.mem_cons_self
    rw [List.take_succ_cons, getLast?_filter_cons, hl]
    cases i with
    | zero =>
      obtain rfl : l = x := Option.some.inj hx
      exact ⟨l, by rw [List.take_zero, hset]; rfl, rfl⟩
    | succ i =>
      refine ih (fun m hm => hls m (List.mem_cons_of_mem _ hm)) (fun m hm => ?_) hx hset
      rcases hp m hm with hmem | hle
      · rcases List.mem_cons.1 hmem with rfl | hmem
        · exact .inr (le_refl _)
        · exact .inl hmem
      · exact .inr (by omega)
  | @hold last g y l ls filled htime _ hy hrest ih =>
    intro i x hx hset
    have hpy : p y = false := hfiller (n := 0) (le_refl 0) hp (by rw [Board.time, hy]) (by simpa using hrest)
    rw [List.take_succ_cons, getLast?_filter_cons, hpy]
    cases i with
    | zero =>
      cases hx
      exact ⟨g, by simp, by rw [hy]; rfl⟩
    | succ i => exact ih hls (fun m hm => (hp m hm).imp_right fun hle => by omega) hx hset
  | @wait last n held y l ls filled hn htime _ hy hrest ih =>
    intro i x hx hset
    have hpy : p y = false := hfiller (by omega) hp (by rw [Board.time, hy]) hrest
    rw [List.take_succ_cons, getLast?_filter_cons, hpy]
    cases i with
    | zero =>
      cases hx
      rw [hy] at hset
      cases hset
    | succ i => exact ih hls (fun m hm => (hp m hm).imp_right fun hle => by omega) hx hset

end Draft

/-! ## The final list -/

/-- The operation of a word, places counted from zero. -/
def operationAt? (words : List Word) (i : Nat) : Option Operation := (words[i]?).map Operation.ofWord

/-- From a SET at tick 0 on, completion has all its stages. -/
theorem Score.exists_layout [Collation] {s : Sequence} {variant : Binary64} {o : Options} (k : Score s variant o)
    {placed : Draft} (h : (k.ledger.place k.length).outcome = .ok placed)
    (hstart : ∃ l ∈ placed.sets, placed.board.time l = 0) :
    ∃ k' : Layout s variant o, k'.toScore = k ∧ k'.placed = placed := by
  have hplaced := Draft.placed_of_place k.linked_ledger.valid k.linked_ledger.nodup h
  have hinside : placed.SetsInside := fun l hl => by
    obtain ⟨hl, hset⟩ := Draft.mem_sets.1 hl
    have hget := hplaced.retimed.get l
    rw [hget] at hset ⊢
    exact k.setsInside_ledger l (Draft.mem_sets.2 ⟨hplaced.perm.mem_iff.1 hl, hset⟩)
  obtain ⟨settled, filled, final, hsettled, hfilled, hfinal, hlength, hscheduled⟩ := Draft.exists_finish
    (k.linked_ledger.of_sameLinks hplaced.retimed.sameLinks hplaced.perm) hinside hplaced.increasing
    (fun l hl => (hplaced.range l hl).1) hstart k.frame.register.complement k.frame.register.mask
  obtain ⟨addressed, haddressed, -⟩ := hscheduled.exists_addressed s.hardware.polarityMask
  exact ⟨{
    k with
    placed, settled, filled, final, addressed, placed_eq := h, settled_eq := hsettled, filled_eq := hfilled
    final_eq := hfinal, final_length := hlength, addressed_eq := haddressed }, rfl, rfl⟩

namespace Layout

variable [Collation] {s : Sequence} {variant : Binary64} {o : Options} (k : Layout s variant o)

/-- The final list is the placed one with its gaps filled: the last merge has nothing to do. -/
theorem fill_final :
    Draft.fillFrom (-1) none k.settled.board k.settled.list = .ok (k.final.list, k.final.board) := by
  obtain ⟨-, hcov⟩ := Draft.covers_of_fillGaps k.linked_settled.valid k.increasing_settled k.filled_eq
  have hsort : k.filled.sort.list = k.filled.list := Draft.sorted_of_increasing hcov.increasing
  have hfinal : (k.filled.sort.mergeSets k.frame.register.mask).outcome =
      .ok (k.filled.sort.supersede k.filled.sort.list) :=
    Draft.mergeSets_of_increasing (by rw [hsort]; exact hcov.increasing) _
  obtain ⟨⟨filled, board⟩, hfill, hfilled⟩ := Except.bind_eq_ok.1 k.filled_eq
  rw [Draft.sorted_of_increasing k.increasing_settled] at hfill
  rw [hfill, Except.ok.inj (k.final_eq.symm.trans hfinal)]
  change _ = Except.ok (k.filled.sort.list, k.filled.board)
  rw [hsort, ← Except.pure_eq_ok.1 hfilled]
  rfl

theorem covers_final : k.settled.board.Extends k.final.board ∧
    Draft.Covers k.final.board (-1) none k.settled.list k.final.list :=
  Draft.covers_of_fillFrom k.linked_settled.valid (by simp) k.fill_final

theorem get_final {l : Label} (hl : l ∈ k.settled.list) : k.final.board.get l = k.settled.board.get l :=
  k.covers_final.1.get_eq l (k.linked_settled.valid l hl)

theorem mem_final {l : Label} (hl : l ∈ k.ledger.list) : l ∈ k.final.list :=
  k.covers_final.2.subset l (k.perm_settled.mem_iff.2 hl)

variable {k} in
/-- Placement and what follows change ticks and drives only. -/
theorem final_of_ledger {l : Label} (hl : l ∈ k.ledger.list) :
    (k.final.board.get l).isSet = (k.ledger.board.get l).isSet ∧
      (k.final.board.get l).block = (k.ledger.board.get l).block ∧
      ((k.ledger.board.get l).isSet = false → (k.final.board.get l).action = (k.ledger.board.get l).action) ∧
      k.final.board.time l = k.placed.board.time l := by
  have hred := k.settled_spec.2.1
  have hret := k.placement.retimed
  have hget := k.get_final (k.perm_settled.mem_iff.2 hl)
  refine ⟨?_, ?_, fun hset => ?_, ?_⟩
  · rw [hget, hred.sameLinks.isSet, hret.isSet_eq]
  · rw [hget, hred.block_eq, hret.block_eq]
  · rw [hget, hred.get_of_not_isSet (by rw [hret.isSet_eq, hset]), hret.action_eq]
  · rw [Board.time, hget]
    exact hred.time_eq l

theorem scheduled_final : k.final.Scheduled :=
  k.covers_final.2.scheduled k.covers_final.1 k.linked_settled.valid
    fun l hl g hg => (k.linked_settled.target l hl g hg).1

theorem addressed_final : k.final.Addressed s.hardware.polarityMask k.addressed := by
  obtain ⟨a, ha, hspec⟩ := k.scheduled_final.exists_addressed s.hardware.polarityMask
  cases k.addressed_eq.symm.trans ha
  exact hspec

variable {k} {words : List Word}

theorem encodable_of_encode (h : k.addressed.encode = .ok words) {l : Label} (hl : l ∈ k.final.list) :
    k.final.Encodable s.hardware.polarityMask l :=
  ((k.addressed_final.encode_eq_ok k.scheduled_final).1 h).1 l hl

theorem words_of_encode (h : k.addressed.encode = .ok words) :
    words = k.final.list.map fun l => (k.final.linked s.hardware.polarityMask l).toWord :=
  ((k.addressed_final.encode_eq_ok k.scheduled_final).1 h).2

/-- Word `i` reads back as the operation of instruction `i`. -/
theorem operationAt?_eq (h : k.addressed.encode = .ok words) (i : Nat) :
    operationAt? words i = (k.final.list[i]?).map (k.final.linked s.hardware.polarityMask) := by
  rw [operationAt?, words_of_encode h, List.getElem?_map, Option.map_map]
  cases hx : k.final.list[i]? with
  | none => rfl
  | some x =>
    exact congrArg some (Operation.ofWord_toWord (encodable_of_encode h (List.mem_of_getElem? hx)).fits)

theorem operationAt?_idxOf (h : k.addressed.encode = .ok words) {l : Label} (hl : l ∈ k.final.list) :
    operationAt? words (k.final.list.idxOf l) = some (k.final.linked s.hardware.polarityMask l) := by
  rw [operationAt?_eq h, List.getElem?_eq_getElem (List.idxOf_lt_length_of_mem hl), List.getElem_idxOf]
  rfl

/-! ## Jumps in the final list -/

/-- A JUMP of the draft is in the final list, and goes to what its target has become. -/
theorem jump_final {x g : Label} {always : Bool} {channel threshold : Binary64} (hx : x ∈ k.emitted.draft.list)
    (hact : (k.emitted.draft.board.get x).action = .jump always channel threshold g) :
    x ∈ k.ledger.list ∧ (k.final.board.get x).action = .jump always channel threshold (k.heir g) ∧
      k.heir g ∈ k.ledger.list := by
  have hset : (k.emitted.draft.board.get x).isSet = false := by rw [Instruction.isSet, hact]
  obtain ⟨hself, hget⟩ := k.descends.other x hx hset
  have hmem := k.descends.mem x hx
  rw [hself] at hmem
  obtain ⟨-, -, haction, -⟩ := final_of_ledger hmem
  obtain ⟨hg, -⟩ := k.ready_emitted.linked.target x hx g (by rw [Instruction.target?, hact])
  refine ⟨hmem, ?_, k.descends.mem g hg⟩
  rw [haction (by rw [hget, Instruction.isSet_retarget, hset]), hget, Instruction.retarget, hact]

end Layout

end PulseSequencer
