import PulseSequencer.Compiler.Branching
import PulseSequencer.Proofs.Drawing

/-!
# Rows of JUMPs

A jump with several rungs becomes a row of JUMPs at consecutive ticks, the lowest threshold last.

* `Build.Goal` : the instruction that the target of a rung stands for;
* `Build.Row`, `Build.row_of_emitRungs` : the JUMPs of a ladder;
* `Build.Branches`, `Build.branches_of_emit` : what a jump adds to a draft;
* `Build.branches_of_foldlM` : what all jumps add.
-/

namespace PulseSequencer

/-- The END at the last tick, in its block. -/
def Instruction.ending (length : Int) : Instruction := ⟨length - 1, some Block.endName, none, [], .stop⟩

namespace Build

/-- A draft that jumps can be added to. -/
structure Ready (f : Frame) (d : Draft) : Prop where
  linked : d.Linked
  faithful : d.Faithful (Pulse.stateAt f.pulses) f.register.complement
  final : f.final ∈ d.list
  ending : ∃ rs, d.board.get f.final = { Instruction.ending f.length with reachedBy := rs }

theorem Ready.stop {f : Frame} {d : Draft} (h : Ready f d) : (d.board.get f.final).action = .stop := by
  obtain ⟨rs, hget⟩ := h.ending
  rw [hget]
  rfl

/-- One draft goes on from another, true to the signal of the frame. -/
abbrev Continues (f : Frame) (names : List String) (opens jumps : List Label) (d d' : Draft) : Prop :=
  Draft.Continues (Pulse.stateAt f.pulses) f.register.complement names opens jumps d d'

theorem Ready.of_continues {f : Frame} {d d' : Draft} {names : List String} {opens jumps : List Label} (h : Ready f d)
    (hc : Continues f names opens jumps d d') : Ready f d' := by
  obtain ⟨rs, hget⟩ := h.ending
  obtain ⟨rs', hrs'⟩ := hc.grows.alike f.final (h.linked.valid _ h.final)
  exact ⟨hc.linked, hc.faithful, hc.grows.mem_list h.final, rs', by rw [hrs', hget]⟩

/-- The JUMP of a rung. -/
def jumping (s : Slot) (r : Rung) (tick : Int) (g : Label) : Instruction :=
  ⟨tick, some s.jump.name, none, [], .jump (r.threshold.equal 0) (if r.threshold.equal 0 then 0 else s.channel)
    (if r.threshold.equal 0 then 0 else r.threshold) g⟩

/-- The label `g` is what a target stands for: the END, a control write at the tick of the destination to which only the
jump `x` goes, or the marker of the slot. -/
inductive Goal (f : Frame) (slots : List Slot) (s : Slot) (marker : Option Label) (b : Board) (x : Label) :
    Target → Label → Prop
  | terminate : Goal f slots s marker b x .terminate f.final
  | destination {r : Reference} {tick : Int} {g : Label} (id : Nat)
      (htick : (destinationTick f slots s.jump.name r).outcome = .ok tick)
      (hg : b.get g = { f.writing id tick none with reachedBy := [x] }) : Goal f slots s marker b x (.destination r) g
  | pass {g : Label} (hg : marker = some g) : Goal f slots s marker b x .pass g

/-- The JUMPs `xs` stand for rungs with ascending thresholds, from a tick backwards. -/
inductive Row (f : Frame) (slots : List Slot) (s : Slot) (marker : Option Label) (b : Board) :
    Int → Ladder → List Label → Prop
  | nil {tick : Int} : Row f slots s marker b tick [] []
  | cons {tick : Int} {r : Rung} {rest : Ladder} {x g : Label} {xs : List Label} (hx : b.get x = jumping s r tick g)
      (hgoal : Goal f slots s marker b x r.target g) (hrest : Row f slots s marker b (tick - 1) rest xs) :
      Row f slots s marker b tick (r :: rest) (x :: xs)

section Grows

variable {f : Frame} {slots : List Slot} {s : Slot} {marker : Option Label} {d d' : Draft} {names : List String}
  {opens jumps : List Label}

theorem Goal.of_grows {x g : Label} {t : Target} (h : Goal f slots s marker d.board x t g)
    (hgrows : Draft.Grows names opens jumps d d')
    (hopens : ∀ l ∈ opens,
      (d.board.get l).action = .stop ∨ ((d.board.get l).isSet = true ∧ (d.board.get l).block ≠ none)) :
    Goal f slots s marker d'.board x t g := by
  cases h with
  | terminate => exact .terminate
  | pass hg => exact .pass hg
  | destination id htick hg =>
    refine .destination id htick ?_
    rw [hgrows.get_eq g (Board.lt_size_of_isSet (by rw [hg]; rfl)), hg]
    intro hmem
    rcases hopens g hmem with h | ⟨-, h⟩
    · rw [hg] at h
      cases h
    · rw [hg] at h
      exact h rfl

theorem Row.of_grows {tick : Int} {rungs : Ladder} {xs : List Label} (h : Row f slots s marker d.board tick rungs xs)
    (hgrows : Draft.Grows names opens jumps d d')
    (hopens : ∀ l ∈ opens,
      (d.board.get l).action = .stop ∨ ((d.board.get l).isSet = true ∧ (d.board.get l).block ≠ none)) :
    Row f slots s marker d'.board tick rungs xs := by
  induction h with
  | nil => exact .nil
  | @cons tick r rest x g xs hx hgoal _ ih =>
    refine .cons ?_ (hgoal.of_grows hgrows hopens) ih
    rw [hgrows.get_eq x (Board.lt_size_of_target? (by rw [hx]; rfl)), hx]
    intro hmem
    rcases hopens x hmem with h | ⟨h, -⟩ <;> rw [hx] at h <;> cases h

end Grows

/-- Every rung of a row has its JUMP. -/
theorem Row.forall₂ {f : Frame} {slots : List Slot} {s : Slot} {marker : Option Label} {b : Board} {tick : Int}
    {rungs : Ladder} {xs : List Label} (h : Row f slots s marker b tick rungs xs) : List.Forall₂
    (fun r x => ∃ time g, b.get x = jumping s r time g ∧ Goal f slots s marker b x r.target g) rungs xs := by
  induction h with
  | nil => exact .nil
  | cons hx hgoal _ ih => exact .cons ⟨_, _, hx, hgoal⟩ ih

theorem Row.block {f : Frame} {slots : List Slot} {s : Slot} {marker : Option Label} {b : Board} {tick : Int}
    {rungs : Ladder} {xs : List Label} (h : Row f slots s marker b tick rungs xs) :
    ∀ x ∈ xs, (b.get x).block = some s.jump.name := by
  induction h with
  | nil => simp
  | cons hx _ _ ih => exact List.forall_mem_cons.2 ⟨by rw [hx]; rfl, ih⟩

/-- The JUMPs of a row stand on the ticks up to that of the jump, the first one last. -/
theorem Row.time_eq {f : Frame} {slots : List Slot} {s : Slot} {marker : Option Label} {b : Board} {tick : Int}
    {rungs : Ladder} {xs : List Label} (h : Row f slots s marker b tick rungs xs) :
    ∀ {i : Nat} {x : Label}, xs[i]? = some x → b.time x = tick - i := by
  induction h with
  | nil => simp
  | @cons tick r rest x g xs hx _ _ ih =>
    intro i y hy
    cases i with
    | zero =>
      cases hy
      rw [Board.time, hx]
      simp [jumping]
    | succ i =>
      rw [ih hy]
      push_cast
      ring

variable {f : Frame} {slots : List Slot} {s : Slot} {b b' : Build}

/-- The instruction of a target other than a pass: the END, or a landing at the tick of the destination. -/
theorem continues_targetOf {t : Target} {g : Label} {names : List String} (hr : Ready f b.draft)
    (h : (targetOf f slots s.jump.name t b).outcome = .ok (g, b')) :
    Continues f names [] [] b.draft b'.draft ∧ g ∈ b'.draft.list ∧
      ((t = .terminate ∧ g = f.final) ∨ ∃ r tick id, t = .destination r ∧ b.draft.board.size ≤ g ∧
        (destinationTick f slots s.jump.name r).outcome = .ok tick ∧
        b'.draft.board.get g = f.writing id tick none) := by
  cases t with
  | terminate =>
    cases h
    exact ⟨.refl hr.linked hr.faithful, hr.final, .inl ⟨rfl, rfl⟩⟩
  | pass => cases h
  | destination r =>
    obtain ⟨tick, htick, h⟩ := Attempt.bind_eq_ok.1 h
    obtain ⟨hcont, hle, hmem, id, hget⟩ := continues_land hr.linked hr.faithful (Attempt.ofExcept_eq_ok.1 h)
    exact ⟨hcont, hmem, .inr ⟨r, tick, id, rfl, hle, htick, hget⟩⟩

/-- The pass marker of a slot. -/
def Marks (f : Frame) (s : Slot) (d : Draft) (m : Label) : Prop :=
  m ∈ d.list ∧ ∃ id rs, d.board.get m = { f.writing id (s.tick + 1) (some s.jump.name) with reachedBy := rs }

theorem Marks.of_grows {d d' : Draft} {names : List String} {opens jumps : List Label} {m : Label} (h : Marks f s d m)
    (hd : d.Linked) (hgrows : Draft.Grows names opens jumps d d') : Marks f s d' m := by
  obtain ⟨hmem, id, rs, hget⟩ := h
  obtain ⟨rs', hrs'⟩ := hgrows.alike m (hd.valid m hmem)
  rw [hget] at hrs'
  exact ⟨hgrows.mem_list hmem, id, rs', hrs'⟩

/-- The first JUMP of a row: its target is the marker, or is made for it. -/
theorem emitRungs_cons_eq_ok {marker : Option Label} {total : Nat} {r : Rung} {rest : Ladder} {tick : Int}
    (h : (emitRungs f slots s marker total tick (r :: rest) b).outcome = .ok b') :
    ∃ g b₁, ((r.target = .pass ∧ marker = some g ∧ b₁ = b) ∨
        (targetOf f slots s.jump.name r.target b).outcome = .ok (g, b₁)) ∧
      (emitRungs f slots s marker total (tick - 1) rest
        (b₁.addJump tick g (r.threshold.equal 0) s.channel r.threshold (some s.jump.name))).outcome = .ok b' := by
  unfold emitRungs at h
  split at h
  · cases h
  simp only at h
  split at h
  · rename_i htarget
    split at h
    · rename_i l
      obtain ⟨⟨g, b₁⟩, hg, h⟩ := Attempt.bind_eq_ok.1 h
      cases hg
      exact ⟨l, b, .inl ⟨htarget, rfl, rfl⟩, h⟩
    · cases h
  · obtain ⟨⟨g, b₁⟩, hg, h⟩ := Attempt.bind_eq_ok.1 h
    exact ⟨g, b₁, .inr hg, h⟩

/-- One rung: the draft up to its JUMP, and what the JUMP goes to. -/
theorem goal_of_rung {r : Rung} {marker : Option Label} {g : Label} (hr : Ready f b.draft)
    (hmarker : ∀ m ∈ marker, Marks f s b.draft m)
    (h : (r.target = .pass ∧ marker = some g ∧ b' = b) ∨
      (targetOf f slots s.jump.name r.target b).outcome = .ok (g, b')) :
    Continues f [s.jump.name] [] [] b.draft b'.draft ∧ g ∈ b'.draft.list ∧
      ((b'.draft.board.get g).isSet = true ∨ (b'.draft.board.get g).action = .stop) ∧
      (g ∈ f.final :: marker.toList ∨ b.draft.board.size ≤ g) ∧
      ∀ tick always channel threshold block, Goal f slots s marker
        (b'.draft.pushJump tick g always channel threshold block).board b'.draft.board.size r.target g := by
  rcases h with ⟨htarget, rfl, rfl⟩ | h
  · obtain ⟨hmem, id, rs, hget⟩ := hmarker g rfl
    refine ⟨.refl hr.linked hr.faithful, hmem, .inl (by rw [hget]; rfl), .inl (by simp), fun _ _ _ _ _ => ?_⟩
    rw [htarget]
    exact .pass rfl
  · obtain ⟨hcont, hmem, hcase⟩ := continues_targetOf hr h
    have hready := hr.of_continues hcont
    rcases hcase with ⟨htarget, rfl⟩ | ⟨q, tick, id, htarget, hle, htick, hget⟩
    · exact ⟨hcont, hmem, .inr hready.stop, .inl (by simp), fun _ _ _ _ _ => by rw [htarget]; exact .terminate⟩
    · refine ⟨hcont, hmem, .inl (by rw [hget]; rfl), .inr hle, fun _ _ _ _ _ => ?_⟩
      rw [htarget]
      refine .destination id htick ?_
      rw [Draft.get_pushJump_target (hready.linked.valid g hmem), hget]
      rfl

/-- The END and the marker are not what a JUMP or a landing looks like. -/
theorem Ready.opens {d : Draft} {marker : Option Label} (hr : Ready f d) (hmarker : ∀ m ∈ marker, Marks f s d m) :
    ∀ l ∈ f.final :: marker.toList, (d.board.get l).action = .stop ∨
      ((d.board.get l).isSet = true ∧ (d.board.get l).block ≠ none) := by
  intro l hl
  rcases List.mem_cons.1 hl with rfl | hl
  · exact .inl hr.stop
  · obtain ⟨-, id, rs, hget⟩ := hmarker l (by simpa using hl)
    exact .inr ⟨by rw [hget]; rfl, by rw [hget]; simp [Frame.writing]⟩

/-- The JUMPs of a ladder are a row. -/
theorem row_of_emitRungs {marker : Option Label} {total : Nat} {rungs : Ladder} : ∀ {tick : Int} {b b' : Build},
    Ready f b.draft → (∀ m ∈ marker, Marks f s b.draft m) →
    (emitRungs f slots s marker total tick rungs b).outcome = .ok b' →
    ∃ xs, Continues f [s.jump.name] (f.final :: marker.toList) xs b.draft b'.draft ∧
      Row f slots s marker b'.draft.board tick rungs xs ∧ ∀ x ∈ xs, x ∈ b'.draft.list := by
  induction rungs with
  | nil =>
    intro tick b b' hr _ h
    cases h
    exact ⟨[], .refl hr.linked hr.faithful, .nil, by simp⟩
  | cons r rest ih =>
    intro tick b b' hr hmarker h
    obtain ⟨g, b₁, htarget, h⟩ := emitRungs_cons_eq_ok h
    obtain ⟨hcont₁, hmem, hland, hopen, hgoal⟩ := goal_of_rung hr hmarker htarget
    have hready₁ := hr.of_continues hcont₁
    have hlt := hready₁.linked.valid g hmem
    have hcont₂ : Continues f [s.jump.name] [g] [b₁.draft.board.size] b₁.draft
        (b₁.addJump tick g (r.threshold.equal 0) s.channel r.threshold (some s.jump.name)).draft :=
      Draft.continues_pushJump hready₁.linked hready₁.faithful (by simp) hmem hland
    have hready₂ := hready₁.of_continues hcont₂
    have hmarker₂ := fun m hm =>
      ((hmarker m hm).of_grows hr.linked hcont₁.grows).of_grows hready₁.linked hcont₂.grows
    obtain ⟨xs, hcont₃, hrow, hxs⟩ := ih hready₂ hmarker₂ h
    have hone : Row f slots s marker
        (b₁.addJump tick g (r.threshold.equal 0) s.channel r.threshold (some s.jump.name)).draft.board tick [r]
        [b₁.draft.board.size] := .cons (Draft.get_pushJump_size hlt) (hgoal _ _ _ _ _) .nil
    refine ⟨b₁.draft.board.size :: xs, ?_, ?_, ?_⟩
    · have h01 : Continues f [s.jump.name] (f.final :: marker.toList) [] b.draft b₁.draft :=
        hcont₁.mono (fun _ h => h) (by simp)
      exact (h01.trans hcont₂ (by simpa using hopen)).trans hcont₃ fun l hl => .inl hl
    · cases hone.of_grows hcont₃.grows (hready₂.opens hmarker₂) with
      | cons hx hg _ => exact .cons hx hg hrow
    · intro x hx
      rcases List.mem_cons.1 hx with rfl | hx
      · exact hcont₃.grows.mem_list (List.mem_append_right _ (List.mem_singleton.2 rfl))
      · exact hxs x hx

/-! ## All JUMPs of a jump -/

/-- What the jump of a slot has become, `xs` being its JUMPs: none if it always passes, one in no block, or a row that
is all JUMPs of its block, with a marker behind it if a rung passes. -/
structure Branches (f : Frame) (slots : List Slot) (s : Slot) (ladder : Ladder) (xs : List Label) (d : Draft) :
    Prop where
  mem : ∀ x ∈ xs, x ∈ d.list
  skipped : ∀ r, ladder = [r] → r.target = .pass → xs = []
  single : ∀ r, ladder = [r] → r.target ≠ .pass → ∃ x g, xs = [x] ∧
    d.board.get x = ⟨s.tick, none, none, [], .jump true 0 0 g⟩ ∧ Goal f slots s none d.board x r.target g
  row : (∀ r, ladder ≠ [r]) → ∃ marker, (∀ m ∈ marker, Marks f s d m) ∧
    ((∃ r ∈ ladder, r.target = .pass) → ∃ m, marker = some m) ∧
    Row f slots s marker d.board s.tick (jumpRungs ladder) xs
  all : ∀ l ∈ d.list, (d.board.get l).target? ≠ none → (d.board.get l).block = some s.jump.name → l ∈ xs

/-- Other jumps leave the branches of a jump as they are. -/
theorem Branches.of_grows {ladder : Ladder} {xs : List Label} {d d' : Draft} {names : List String} {jumps : List Label}
    (h : Branches f slots s ladder xs d) (hr : Ready f d) (hgrows : Draft.Grows names [f.final] jumps d d')
    (hname : s.jump.name ∉ names) : Branches f slots s ladder xs d' := by
  have hopens : ∀ l ∈ [f.final], (d.board.get l).action = .stop ∨
      ((d.board.get l).isSet = true ∧ (d.board.get l).block ≠ none) := fun l hl => by
    rw [List.mem_singleton.1 hl]
    exact .inl hr.stop
  refine ⟨fun x hx => hgrows.mem_list (h.mem x hx), h.skipped, fun r hladder ht => ?_, fun hne => ?_,
    fun l hl htarget hblock => ?_⟩
  · obtain ⟨x, g, rfl, hget, hgoal⟩ := h.single r hladder ht
    refine ⟨x, g, rfl, ?_, hgoal.of_grows hgrows hopens⟩
    rw [hgrows.get_eq x (hr.linked.valid x (h.mem x (List.mem_singleton.2 rfl))), hget]
    intro hmem
    rcases hopens x hmem with h | ⟨h, -⟩ <;> rw [hget] at h <;> cases h
  · obtain ⟨marker, hmarks, hpass, hrow⟩ := h.row hne
    exact ⟨marker, fun m hm => (hmarks m hm).of_grows hr.linked hgrows, hpass, hrow.of_grows hgrows hopens⟩
  · rcases hgrows.mem_cases hl with hl | ⟨hnew, -⟩
    · obtain ⟨rs, hrs⟩ := hgrows.alike l (hr.linked.valid l hl)
      rw [hrs] at htarget hblock
      exact h.all l hl htarget hblock
    · exact absurd (hnew _ hblock) hname

/-- A JUMP that is in a block is in that of its jump, whose ladder has not just one rung. -/
theorem Branches.of_block {d : Draft} {ladder : Ladder} {xs : List Label} (h : Branches f slots s ladder xs d)
    {x : Label} (hx : x ∈ xs) {n : String} (hn : (d.board.get x).block = some n) :
    n = s.jump.name ∧ ∀ r, ladder ≠ [r] := by
  have hnot : ∀ r, ladder ≠ [r] := fun r hr => by
    by_cases hpass : r.target = .pass
    · rw [h.skipped r hr hpass] at hx
      cases hx
    · obtain ⟨y, g, rfl, hy, -⟩ := h.single r hr hpass
      rw [List.mem_singleton.1 hx, hy] at hn
      cases hn
  obtain ⟨marker, -, -, hrow⟩ := h.row hnot
  exact ⟨Option.some.inj (hn.symm.trans (hrow.block x hx)), hnot⟩

/-- The marker of a ladder with a pass, as it is written before the JUMPs. -/
theorem emit_eq_ok {ladder : Ladder} (hladder : s.jump.mergedLadder = .ok ladder)
    (h : (emit f slots s b).outcome = .ok b') :
    (∃ r, ladder = [r] ∧ r.target = .pass ∧ b' = b) ∨
    (∃ r g b₁, ladder = [r] ∧ r.target ≠ .pass ∧ (targetOf f slots s.jump.name r.target b).outcome = .ok (g, b₁) ∧
      b' = b₁.addJump s.tick g true s.channel 0 none) ∨
    ((∀ r, ladder ≠ [r]) ∧ ∃ marker b₁,
      (((∃ r ∈ ladder, r.target = .pass) ∧ ∃ m, marker = some m ∧
          b.writeId f (s.tick + 1) (some s.jump.name) = .ok (m, b₁)) ∨
        ((¬ ∃ r ∈ ladder, r.target = .pass) ∧ marker = none ∧ b₁ = b)) ∧
      (emitRungs f slots s marker (jumpRungs ladder).length s.tick (jumpRungs ladder) b₁).outcome = .ok b') := by
  obtain ⟨ladder', hladder', h⟩ := Attempt.bind_eq_ok.1 h
  cases hladder.symm.trans (Attempt.ofExcept_eq_ok.1 hladder')
  simp only at h
  split at h
  · cases h
  split at h
  · split at h
    · rename_i htarget
      obtain ⟨_, -, h⟩ := Attempt.bind_eq_ok.1 h
      cases h
      exact .inl ⟨_, rfl, htarget, rfl⟩
    · rename_i htarget
      obtain ⟨⟨g, b₁⟩, hg, h⟩ := Attempt.bind_eq_ok.1 h
      cases h
      exact .inr (.inl ⟨_, g, b₁, rfl, htarget, hg, rfl⟩)
  · rename_i hne
    refine .inr (.inr ⟨hne, ?_⟩)
    split at h
    · rename_i hpass
      obtain ⟨⟨m, b₁⟩, hm, h⟩ := Attempt.bind_eq_ok.1 h
      obtain ⟨⟨_, _⟩, heq, h⟩ := Attempt.bind_eq_ok.1 h
      cases heq
      exact ⟨some m, b₁, .inl ⟨by simpa using hpass, m, rfl, Attempt.ofExcept_eq_ok.1 hm⟩, h⟩
    · rename_i hpass
      obtain ⟨⟨_, _⟩, heq, h⟩ := Attempt.bind_eq_ok.1 h
      cases heq
      exact ⟨none, b, .inr ⟨by simpa using hpass, rfl, rfl⟩, h⟩

/-- The JUMPs that a draft has gained are all JUMPs of the block. -/
theorem all_of_grows {d d' : Draft} {xs : List Label} (hd : d.Linked)
    (hfresh : ∀ l ∈ d.list, (d.board.get l).target? ≠ none → (d.board.get l).block ≠ some s.jump.name)
    (hgrows : Draft.Grows [s.jump.name] [f.final] xs d d') :
    ∀ l ∈ d'.list, (d'.board.get l).target? ≠ none → (d'.board.get l).block = some s.jump.name → l ∈ xs := by
  intro l hl htarget hblock
  rcases hgrows.mem_cases hl with hl | ⟨-, hl | hset⟩
  · obtain ⟨rs, hrs⟩ := hgrows.alike l (hd.valid l hl)
    rw [hrs] at htarget hblock
    exact absurd hblock (hfresh l hl htarget)
  · exact hl
  · exact absurd (Instruction.target?_of_isSet hset) htarget

theorem branches_of_emit (hr : Ready f b.draft)
    (hfresh : ∀ l ∈ b.draft.list, (b.draft.board.get l).target? ≠ none →
      (b.draft.board.get l).block ≠ some s.jump.name)
    (h : (emit f slots s b).outcome = .ok b') :
    ∃ ladder xs, s.jump.mergedLadder = .ok ladder ∧ Continues f [s.jump.name] [f.final] xs b.draft b'.draft ∧
      Branches f slots s ladder xs b'.draft := by
  obtain ⟨ladder, hladder, -⟩ := Attempt.bind_eq_ok.1 h
  rw [Attempt.ofExcept_eq_ok] at hladder
  rcases emit_eq_ok hladder h with ⟨r, rfl, htarget, rfl⟩ | ⟨r, g, b₁, rfl, htarget, hg, rfl⟩ |
    ⟨hne, marker, b₁, hmarker, hrungs⟩
  · have hcont : Continues f [s.jump.name] [f.final] [] b'.draft b'.draft := .refl hr.linked hr.faithful
    refine ⟨[r], [], hladder, hcont, by simp, fun _ _ _ => rfl, fun r' hr' ht => ?_, fun hne => absurd rfl (hne r),
      all_of_grows hr.linked hfresh hcont.grows⟩
    cases hr'
    exact absurd htarget ht
  · have hno : ∀ m ∈ (none : Option Label), Marks f s b.draft m := by simp
    obtain ⟨hcont, hmem, hland, hopen, hgoal⟩ := goal_of_rung hr hno (.inr hg)
    have hready := hr.of_continues hcont
    have hcont' : Continues f [s.jump.name] [g] [b₁.draft.board.size] b₁.draft
        (b₁.addJump s.tick g true s.channel 0 none).draft :=
      Draft.continues_pushJump hready.linked hready.faithful (by simp) hmem hland
    have h01 : Continues f [s.jump.name] [f.final] [] b.draft b₁.draft := hcont.mono (fun _ h => h) (by simp)
    have hall := h01.trans hcont' (by simpa using hopen)
    refine ⟨[r], [b₁.draft.board.size], hladder, hall, fun x hx => ?_, fun r' hr' ht => ?_, fun r' hr' _ => ?_,
      fun hne => absurd rfl (hne r), all_of_grows hr.linked hfresh hall.grows⟩
    · exact List.mem_append_right _ hx
    · cases hr'
      exact absurd ht htarget
    · cases hr'
      exact ⟨b₁.draft.board.size, g, rfl, Draft.get_pushJump_size (hready.linked.valid g hmem), hgoal _ _ _ _ _⟩
  · -- the marker comes first, then the row
    have hmarked : Continues f [s.jump.name] [] [] b.draft b₁.draft ∧ (∀ m ∈ marker, Marks f s b₁.draft m) ∧
        (∀ m ∈ marker, b.draft.board.size ≤ m) ∧ ((∃ r ∈ ladder, r.target = .pass) → ∃ m, marker = some m) := by
      rcases hmarker with ⟨-, m, rfl, hwrite⟩ | ⟨hno, rfl, rfl⟩
      · obtain ⟨hcont, hle, hmem, id, hget⟩ := continues_writeId hr.linked hr.faithful
          (fun n hn => List.mem_singleton.2 (Option.some.inj hn).symm) hwrite
        refine ⟨hcont, ?_, ?_, fun _ => ⟨m, rfl⟩⟩
        · rintro _ ⟨⟩
          exact ⟨hmem, id, [], hget⟩
        · rintro _ ⟨⟩
          exact hle
      · exact ⟨.refl hr.linked hr.faithful, by simp, by simp, fun hyes => absurd hyes hno⟩
    obtain ⟨hcont, hmarks, hnew, hpass⟩ := hmarked
    have hready := hr.of_continues hcont
    obtain ⟨xs, hcont', hrow, hxs⟩ := row_of_emitRungs hready hmarks hrungs
    have h01 : Continues f [s.jump.name] [f.final] [] b.draft b₁.draft := hcont.mono (fun _ h => h) (by simp)
    have hall := h01.trans hcont' (by
      intro l hl
      rcases List.mem_cons.1 hl with rfl | hl
      · exact .inl (List.mem_singleton.2 rfl)
      · exact .inr (hnew l (by simpa using hl)))
    exact ⟨ladder, xs, hladder, hall, hxs, fun r hr' _ => absurd hr' (hne r), fun r hr' _ => absurd hr' (hne r),
      fun _ => ⟨marker, fun m hm => (hmarks m hm).of_grows hready.linked hcont'.grows, hpass, hrow⟩,
      all_of_grows hr.linked hfresh hall.grows⟩

/-- Jumps with names of their own, one after the other; `own` gives the JUMPs of each. -/
theorem branches_of_foldlM {todo : List Slot} : ∀ {b b' : Build}, Ready f b.draft →
    (todo.map fun s => s.jump.name).Nodup →
    (∀ s ∈ todo, ∀ l ∈ b.draft.list, (b.draft.board.get l).target? ≠ none →
      (b.draft.board.get l).block ≠ some s.jump.name) →
    (todo.foldlM (fun b s => emit f slots s b) b).outcome = .ok b' →
    ∃ own : Slot → List Label,
      Continues f (todo.map fun s => s.jump.name) [f.final] (todo.flatMap own) b.draft b'.draft ∧
      ∀ s ∈ todo, ∃ ladder, s.jump.mergedLadder = .ok ladder ∧ Branches f slots s ladder (own s) b'.draft := by
  induction todo with
  | nil =>
    intro b b' hr _ _ h
    cases h
    exact ⟨fun _ => [], .refl hr.linked hr.faithful, by simp⟩
  | cons s todo ih =>
    intro b b' hr hnodup hfresh h
    obtain ⟨b₁, h1, h2⟩ := Attempt.foldlM_cons_eq_ok.1 h
    obtain ⟨hname, hnodup⟩ := List.nodup_cons.1 hnodup
    obtain ⟨ladder, xs, hladder, hcont, hbranch⟩ := branches_of_emit hr (hfresh s List.mem_cons_self) h1
    have hready := hr.of_continues hcont
    obtain ⟨own, hcont', hbranches⟩ := ih hready hnodup (fun s' hs' l hl htarget hblock => by
      rcases hcont.grows.mem_cases hl with hl | ⟨hnew, -⟩
      · obtain ⟨rs, hrs⟩ := hcont.grows.alike l (hr.linked.valid l hl)
        rw [hrs] at htarget hblock
        exact hfresh s' (List.mem_cons_of_mem _ hs') l hl htarget hblock
      · have := List.mem_singleton.1 (hnew _ hblock)
        exact hname (List.mem_map.2 ⟨s', hs', this⟩)) h2
    have hother : ∀ s' ∈ todo, s' ≠ s := by
      rintro s' hs' rfl
      exact hname (List.mem_map.2 ⟨s', hs', rfl⟩)
    have hjumps : (s :: todo).flatMap (fun s' => if s' = s then xs else own s') = xs ++ todo.flatMap own := by
      rw [List.flatMap_cons, if_pos rfl]
      exact congrArg _ (List.flatMap_congr fun s' hs' => if_neg (hother s' hs'))
    refine ⟨fun s' => if s' = s then xs else own s', ?_, fun s' hs' => ?_⟩
    · rw [hjumps]
      exact (hcont.mono (by simp) (fun l hl => .inl hl)).trans
        (hcont'.mono (fun n hn => List.mem_cons_of_mem _ hn) (fun l hl => .inl hl)) fun l hl => .inl hl
    · beta_reduce
      rcases List.mem_cons.1 hs' with rfl | hs'
      · rw [if_pos rfl]
        exact ⟨ladder, hladder, hbranch.of_grows hready hcont'.grows hname⟩
      · rw [if_neg (hother s' hs')]
        exact hbranches s' hs'

end Build

end PulseSequencer
