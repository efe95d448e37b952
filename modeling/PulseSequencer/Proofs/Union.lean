import PulseSequencer.Proofs.Attempt
import PulseSequencer.Proofs.Board

/-!
# What uniting SETs gives

* `Drive.Inside` : a drive that keeps to its mask;
* `Board.unionDrive_cons_eq_ok`, `Board.unite_eq_ok` : one step of the union of drives, and the union of SETs;
* `Board.DriveUnion`, `Board.driveUnion_of_ok` : every bit comes from the first drive that has it in its mask;
* `Board.Settles`, `Board.settles_iff` : one bit of the drives, compared with those before or with each other;
* `Board.unionDrive_ok` : drives that agree outside the control register can be united;
* `Board.CommonBlock`, `Board.Unites` : the block and the cell of a united SET, and where jumps to its parts go.
-/

namespace PulseSequencer

/-- A drive sets no bit outside its mask. -/
def Drive.Inside (d : Drive) : Prop := ∀ i, Bits.bit d.value i = true → Bits.bit d.mask i = true

namespace Board

/-! ## Drives -/

/-- The drive `r` has the bits of all drives; where several have a bit, the first one counts. -/
structure DriveUnion (ds : List Drive) (r : Drive) : Prop where
  mask : ∀ i, Bits.bit r.mask i = ds.any fun e => Bits.bit e.mask i
  value : ∀ i e, ds.find? (fun e => Bits.bit e.mask i) = some e → Bits.bit r.value i = Bits.bit e.value i
  inside : r.Inside
  marker : r.marker = ds.any Drive.marker

theorem DriveUnion.exists_of_mask {ds : List Drive} {r : Drive} (h : DriveUnion ds r) {i : Nat}
    (hi : Bits.bit r.mask i = true) : ∃ e ∈ ds, Bits.bit e.mask i = true ∧ Bits.bit r.value i = Bits.bit e.value i := by
  rw [h.mask, List.any_eq_true, ← List.find?_isSome, Option.isSome_iff_exists] at hi
  obtain ⟨e, he⟩ := hi
  have hmask := List.find?_some he
  exact ⟨e, List.mem_of_find?_eq_some he, hmask, h.value i e he⟩

/-- The union of two drives, the first one before the second. -/
def join (d e : Drive) : Drive :=
  { value := Bits.or d.value (Bits.without e.value d.mask), mask := Bits.or d.mask e.mask,
    polarity := Bits.or d.polarity e.polarity, marker := d.marker || e.marker }

theorem inside_join {d e : Drive} (hd : d.Inside) (he : e.Inside) : (join d e).Inside := by
  intro i
  simp only [join, Bits.bit_or, Bits.bit_without, Bool.or_eq_true, Bool.and_eq_true]
  rintro (h | h)
  · exact .inl (hd i h)
  · exact .inr (he i h.1)

/-- The bits that both drives have, with different values. -/
def conflict (d e : Drive) : Int := Bits.and (Bits.and (Bits.xor d.value e.value) d.mask) e.mask

theorem bit_conflict {d e : Drive} {i : Nat} : Bits.bit (conflict d e) i = true ↔
    Bits.bit d.mask i = true ∧ Bits.bit e.mask i = true ∧ Bits.bit d.value i ≠ Bits.bit e.value i := by
  simp only [conflict, Bits.bit_and, Bits.bit_xor, Bool.and_eq_true, bne_iff_ne]
  tauto

/-- One step of the union: conflicts are in the control register only, and the joined drive goes on. -/
theorem unionDrive_cons_eq_ok {time controlMask : Int} {d e r : Drive} {ds : List Drive} :
    (unionDrive time controlMask d (e :: ds)).outcome = .ok r ↔
      (∀ i, Bits.bit (conflict d e) i = true → Bits.bit controlMask i = true) ∧
        (unionDrive time controlMask (join d e) ds).outcome = .ok r := by
  rw [← Bits.without_eq_zero, unionDrive]
  simp only
  split
  · rename_i hclash
    constructor
    · intro h
      cases h
    · intro h
      exact absurd h.1 hclash
  · rename_i hclash
    refine Iff.trans ?_ (and_iff_right (not_not.1 hclash)).symm
    split
    · exact Iff.rfl
    · exact Iff.rfl

/-- What the union gives does not depend on the control register. -/
theorem foldl_join_of_ok {time controlMask : Int} {ds : List Drive} : ∀ {d r : Drive},
    (unionDrive time controlMask d ds).outcome = .ok r → r = ds.foldl join d := by
  induction ds with
  | nil =>
    intro d r h
    exact (Except.ok.inj h).symm
  | cons e ds ih =>
    intro d r h
    exact ih (unionDrive_cons_eq_ok.1 h).2

/-- Uniting the first two drives first changes nothing. -/
theorem DriveUnion.of_join {d e r : Drive} {ds : List Drive} (hd : d.Inside)
    (h : DriveUnion (join d e :: ds) r) : DriveUnion (d :: e :: ds) r := by
  refine ⟨fun i => ?_, fun i x hx => ?_, h.inside, ?_⟩
  · rw [h.mask]
    simp [join, Bool.or_assoc]
  · have hjoin := h.value i
    simp only [List.find?_cons] at hx hjoin
    cases h1 : Bits.bit d.mask i with
    | true =>
      simp only [h1, Option.some.injEq] at hx
      rw [hjoin (join d e) (by simp [join, h1]), ← hx]
      simp [join, h1]
    | false =>
      have h1' : Bits.bit d.value i = false := by
        rw [← Bool.not_eq_true]
        exact fun h' => by simp [hd i h'] at h1
      cases h2 : Bits.bit e.mask i with
      | true =>
        simp only [h1, h2, Option.some.injEq] at hx
        rw [hjoin (join d e) (by simp [join, h2]), ← hx]
        simp [join, h1, h1']
      | false =>
        simp only [h1, h2] at hx
        exact hjoin x (by simp [join, h1, h2, hx])
  · rw [h.marker]
    simp [join, Bool.or_assoc]

theorem driveUnion_of_ok {time controlMask : Int} {ds : List Drive} : ∀ {d r : Drive}, d.Inside → (∀ e ∈ ds, e.Inside) →
    (unionDrive time controlMask d ds).outcome = .ok r → DriveUnion (d :: ds) r := by
  induction ds with
  | nil =>
    intro d r hd _ h
    cases h
    refine ⟨by simp, fun i e he => ?_, hd, by simp⟩
    rw [List.mem_singleton.1 (List.mem_of_find?_eq_some he)]
  | cons e ds ih =>
    intro d r hd hds h
    have he := hds e List.mem_cons_self
    exact .of_join hd
      (ih (inside_join hd he) (fun x hx => hds x (List.mem_cons_of_mem _ hx)) (unionDrive_cons_eq_ok.1 h).2)

/-- What a joined drive has on a bit, one of its two parts has. -/
theorem exists_part_of_join {d e x : Drive} {ds : List Drive} (hd : d.Inside) (he : e.Inside) (hx : x ∈ join d e :: ds)
    {i : Nat} (hi : Bits.bit x.mask i = true) :
    ∃ y ∈ d :: e :: ds, Bits.bit y.mask i = true ∧ Bits.bit x.value i = Bits.bit y.value i := by
  rcases List.mem_cons.1 hx with rfl | hx
  · have hu : DriveUnion [d, e] (join d e) :=
      .of_join hd ⟨by simp, fun i x hx => by
        rw [List.mem_singleton.1 (List.mem_of_find?_eq_some hx)], inside_join hd he, by simp⟩
    obtain ⟨y, hy, hy1, hy2⟩ := hu.exists_of_mask hi
    exact ⟨y, by simp at hy ⊢; tauto, hy1, hy2⟩
  · exact ⟨x, by simp [hx], hi, rfl⟩

/-- On bit `i` no drive differs from the union of those before it. -/
def Settles (i : Nat) : Drive → List Drive → Prop
  | _, [] => True
  | d, e :: ds => Bits.bit (conflict d e) i = false ∧ Settles i (join d e) ds

theorem bit_join_right {d e : Drive} {i : Nat} (hd : d.Inside) (hi : Bits.bit e.mask i = true)
    (h : Bits.bit (conflict d e) i = false) : Bits.bit (join d e).value i = Bits.bit e.value i := by
  have hdi := hd i
  simp only [conflict, Bits.bit_and, Bits.bit_xor, hi] at h
  simp only [join, Bits.bit_or, Bits.bit_without]
  revert hdi h
  cases Bits.bit d.value i <;> cases Bits.bit d.mask i <;> simp

theorem Settles.value {i : Nat} {ds : List Drive} : ∀ {d : Drive}, Settles i d ds → d.Inside → (∀ e ∈ ds, e.Inside) →
    ∀ e ∈ d :: ds, Bits.bit e.mask i = true → Bits.bit (ds.foldl join d).value i = Bits.bit e.value i := by
  induction ds with
  | nil =>
    intro d _ _ _ e he _
    rw [List.mem_singleton.1 he]
    rfl
  | cons e ds ih =>
    intro d h hd hds x hx hi
    have hrest := ih h.2 (inside_join hd (hds e List.mem_cons_self)) fun x hx => hds x (List.mem_cons_of_mem _ hx)
    rw [List.foldl_cons]
    rcases List.mem_cons.1 hx with rfl | hx
    · rw [hrest (join x e) List.mem_cons_self (by simp [join, hi])]
      simp [join, hi]
    rcases List.mem_cons.1 hx with rfl | hx
    · rw [hrest (join d x) List.mem_cons_self (by simp [join, hi]), bit_join_right hd hi h.1]
    · exact hrest x (List.mem_cons_of_mem _ hx) hi

/-- It is enough to compare each drive with the union of those before it. -/
theorem settles_iff {i : Nat} {ds : List Drive} : ∀ {d : Drive}, d.Inside → (∀ e ∈ ds, e.Inside) →
    (Settles i d ds ↔ ∀ x ∈ d :: ds, ∀ y ∈ d :: ds, Bits.bit x.mask i = true → Bits.bit y.mask i = true →
      Bits.bit x.value i = Bits.bit y.value i) := by
  intro d hd hds
  constructor
  · intro h x hx y hy hxi hyi
    rw [← h.value hd hds x hx hxi, h.value hd hds y hy hyi]
  · intro h
    induction ds generalizing d with
    | nil => trivial
    | cons e ds ih =>
      have he := hds e List.mem_cons_self
      refine ⟨?_, ih (inside_join hd he) (fun x hx => hds x (List.mem_cons_of_mem _ hx)) fun x hx y hy hxi hyi => ?_⟩
      · rw [← Bool.not_eq_true, bit_conflict]
        rintro ⟨hdi, hei, hne⟩
        exact hne (h d (by simp) e (by simp) hdi hei)
      · obtain ⟨x', hx', hx1, hx2⟩ := exists_part_of_join hd he hx hxi
        obtain ⟨y', hy', hy1, hy2⟩ := exists_part_of_join hd he hy hyi
        rw [hx2, hy2]
        exact h x' hx' y' hy' hx1 hy1

theorem exists_unionDrive_iff {time controlMask : Int} {ds : List Drive} : ∀ {d : Drive},
    (∃ r, (unionDrive time controlMask d ds).outcome = .ok r) ↔
      ∀ i, Bits.bit controlMask i = false → Settles i d ds := by
  induction ds with
  | nil => exact fun {d} => ⟨fun _ _ _ => trivial, fun _ => ⟨d, rfl⟩⟩
  | cons e ds ih =>
    intro d
    simp only [unionDrive_cons_eq_ok, exists_and_left, ih, Settles, ← forall_and]
    refine forall_congr' fun i => ?_
    cases Bits.bit controlMask i <;> cases Bits.bit (conflict d e) i <;> simp

/-- Drives that agree on the bits they share can be united, the control register apart. -/
theorem unionDrive_ok {time controlMask : Int} {ds : List Drive} {d : Drive} (hd : d.Inside) (hds : ∀ e ∈ ds, e.Inside)
    (hagree : ∀ i, Bits.bit controlMask i = false → ∀ x ∈ d :: ds, ∀ y ∈ d :: ds, Bits.bit x.mask i = true →
      Bits.bit y.mask i = true → Bits.bit x.value i = Bits.bit y.value i) :
    ∃ r, (unionDrive time controlMask d ds).outcome = .ok r :=
  exists_unionDrive_iff.2 fun i hi => (settles_iff hd hds).2 (hagree i hi)

/-- A drive without bits adds nothing. -/
theorem DriveUnion.of_zero {ds : List Drive} {r : Drive} (h : DriveUnion (⟨0, 0, 0, false⟩ :: ds) r) :
    DriveUnion ds r := by
  refine ⟨fun i => by simpa using h.mask i, fun i e he => h.value i e ?_, h.inside, by simpa using h.marker⟩
  simpa [List.find?_cons] using he

/-! ## Blocks -/

/-- SETs can be united if they stand at one tick and at most one of them is in a block, which the union is in then. -/
theorem commonBlock_eq_ok {b : Board} {time : Int} {ls : List Label} : ∀ {block r : Option String},
    b.commonBlock time block ls = .ok r ↔
      (∀ l ∈ ls, b.time l = time) ∧ block.toList ++ ls.filterMap (fun l => (b.get l).block) = r.toList := by
  induction ls with
  | nil =>
    intro block r
    rw [commonBlock]
    cases block <;> cases r <;> simp
  | cons l ls ih =>
    intro block r
    unfold commonBlock
    simp only [ne_eq, ite_not, List.forall_mem_cons]
    by_cases ht : (b.get l).time = time
    · rw [if_pos ht]
      cases hl : (b.get l).block with
      | none => simp [ih, hl, time_eq, ht]
      | some name =>
        cases block with
        | none => simp [ih, hl, time_eq, ht]
        | some other =>
          have hlong : ∀ r : Option String, ¬ other :: name :: ls.filterMap (fun l => (b.get l).block) = r.toList := by
            intro r h
            cases r <;> simp at h
          simp only [hl, List.filterMap_cons, Option.toList_some, List.singleton_append, hlong, and_false, iff_false]
          split <;> simp
    · rw [if_neg ht]
      simp [time_eq, ht]

/-! ## United SETs -/

/-- The board `b'` has a new SET `u` for the SETs `ls` of `b`, and the jumps to them go to it. -/
structure Unites (b : Board) (ls : List Label) (u : Label) (b' : Board) : Prop where
  label : u = b.size
  size : b'.size = b.size + 1
  cell : ∃ time block d, b'.get u = ⟨time, block, none, ls.flatMap fun l => (b.get l).reachedBy, .set d⟩ ∧
    (∀ l ∈ ls, b.time l = time) ∧ ls.filterMap (fun l => (b.get l).block) = block.toList ∧
    DriveUnion (ls.map fun l => (b.get l).drive) d
  old : ∀ m, m < b.size → b'.get m =
    if m ∈ ls.flatMap (fun l => (b.get l).reachedBy) then (b.get m).retarget fun _ => u else b.get m

section Unites

variable {b b' : Board} {ls : List Label} {u m : Label}

theorem Unites.reachedBy_eq (h : b.Unites ls u b') (hm : m < b.size) : (b'.get m).reachedBy = (b.get m).reachedBy := by
  rw [h.old m hm]
  split
  · exact Instruction.reachedBy_retarget _ _
  · rfl

theorem Unites.isSet_eq (h : b.Unites ls u b') (hm : m < b.size) : (b'.get m).isSet = (b.get m).isSet := by
  rw [h.old m hm]
  split
  · exact Instruction.isSet_retarget _ _
  · rfl

/-- Only jumps change. -/
theorem Unites.get_of_isSet (h : b.Unites ls u b') (hm : m < b.size) (hset : (b.get m).isSet = true) :
    b'.get m = b.get m := by
  rw [h.old m hm]
  split
  · exact Instruction.retarget_of_target?_eq_none (Instruction.target?_of_isSet hset)
  · rfl

end Unites

/-- The SET that several SETs are united into. -/
theorem unite_eq_ok {b b' : Board} {m : Int} {sets : List Label} {u : Label} :
    (b.unite m sets).outcome = .ok (u, b') ↔ ∃ first block d, sets.head? = some first ∧
      b.commonBlock (b.time first) none sets = .ok block ∧
      (unionDrive (b.time first) m ⟨0, 0, 0, false⟩ (sets.map fun l => (b.get l).drive)).outcome = .ok d ∧
      Bits.without d.value d.mask = 0 ∧ u = b.size ∧
      b' = (sets.flatMap fun l => (b.get l).reachedBy).foldl (fun b l => b.modify l (redirect u))
        (b.add ⟨b.time first, block, none, sets.flatMap fun l => (b.get l).reachedBy, .set d⟩).2 := by
  cases sets with
  | nil =>
    refine ⟨fun h => (by cases h), fun ⟨first, block, d, h, _⟩ => (by cases h)⟩
  | cons first rest =>
    unfold unite
    constructor
    · intro h
      obtain ⟨block, hblock, h⟩ := Attempt.bind_eq_ok.1 h
      obtain ⟨d, hd, h⟩ := Attempt.bind_eq_ok.1 h
      obtain ⟨⟨l, c⟩, hc, h⟩ := Attempt.bind_eq_ok.1 h
      obtain ⟨hin, hadd⟩ := addSet_eq_ok.1 (Attempt.ofExcept_eq_ok.1 hc)
      cases hadd
      cases h
      exact ⟨first, block, d, rfl, Attempt.ofExcept_eq_ok.1 hblock, hd, hin, rfl,
        congrArg (List.foldl _ · _) (modify_add b _ _)⟩
    · rintro ⟨_, block, d, ⟨⟩, hblock, hd, hin, rfl, rfl⟩
      exact Attempt.bind_eq_ok.2 ⟨block, Attempt.ofExcept_eq_ok.2 hblock, Attempt.bind_eq_ok.2 ⟨d, hd,
        Attempt.bind_eq_ok.2 ⟨_, Attempt.ofExcept_eq_ok.2 (addSet_eq_ok.2 ⟨hin, rfl⟩),
          congrArg (fun c => Except.ok (b.size, List.foldl _ c _)) (modify_add b _ _)⟩⟩⟩

theorem redirect_redirect (u : Label) (i : Instruction) : redirect u (redirect u i) = redirect u i := by
  rw [redirect_eq_retarget, redirect_eq_retarget, Instruction.retarget_retarget]
  rfl

/-- The cells after a union: the new SET, and the old instructions with the jumps to the SETs led to it. -/
theorem cells_of_unite {b : Board} {controlMask : Int} {ls : List Label} {u : Label} {b' : Board}
    (h : (b.unite controlMask ls).outcome = .ok (u, b')) :
    u = b.size ∧ b'.size = b.size + 1 ∧
      (∃ time block d, b'.get u = ⟨time, block, none, ls.flatMap fun l => (b.get l).reachedBy, .set d⟩ ∧
        (∀ l ∈ ls, b.time l = time) ∧ ls.filterMap (fun l => (b.get l).block) = block.toList ∧
        (unionDrive time controlMask ⟨0, 0, 0, false⟩ (ls.map fun l => (b.get l).drive)).outcome = .ok d) ∧
      ∀ m, m < b.size → b'.get m =
        if m ∈ ls.flatMap (fun l => (b.get l).reachedBy) then (b.get m).retarget fun _ => u else b.get m := by
  obtain ⟨first, block, d, -, hblock, hd, -, rfl, rfl⟩ := unite_eq_ok.1 h
  obtain ⟨htime, hblock⟩ := commonBlock_eq_ok.1 hblock
  refine ⟨rfl, ?_, ⟨b.time first, block, d, ?_, htime, by simpa using hblock, hd⟩, fun m hm => ?_⟩
  · rw [size_foldl_modify, size_add]
  · rw [get_foldl_modify (.inr (redirect_redirect b.size)), get_add_size]
    split <;> rfl
  · rw [get_foldl_modify (.inr (redirect_redirect b.size)), get_add_of_lt _ hm, redirect_eq_retarget, size_add]
    simp only [Nat.lt_succ_of_lt hm, and_true]

theorem unites_of_unite {b : Board} {controlMask : Int} {ls : List Label} {u : Label} {b' : Board}
    (hin : ∀ l ∈ ls, (b.get l).drive.Inside) (h : (b.unite controlMask ls).outcome = .ok (u, b')) :
    b.Unites ls u b' := by
  obtain ⟨hlabel, hsize, ⟨time, block, d, hcell, htime, hblock, hd⟩, hold⟩ := cells_of_unite h
  have hunion : DriveUnion (ls.map fun l => (b.get l).drive) d := by
    refine .of_zero (driveUnion_of_ok (fun i hi => by simp at hi) (fun e he => ?_) hd)
    obtain ⟨l, hl, rfl⟩ := List.mem_map.1 he
    exact hin l hl
  exact ⟨hlabel, hsize, ⟨time, block, d, hcell, htime, hblock, hunion⟩, hold⟩

/-- SETs of one tick, at most one of them in a block, that agree on all bits but those of the control register. -/
structure Unitable (b : Board) (controlMask : Int) (ls : List Label) : Prop where
  ne_nil : ls ≠ []
  inside : ∀ l ∈ ls, (b.get l).drive.Inside
  time : ∀ x ∈ ls, ∀ y ∈ ls, b.time x = b.time y
  block : ∃ r : Option String, ls.filterMap (fun l => (b.get l).block) = r.toList
  agree : ∀ i, Bits.bit controlMask i = false → ∀ x ∈ ls, ∀ y ∈ ls, Bits.bit (b.get x).drive.mask i = true →
    Bits.bit (b.get y).drive.mask i = true → Bits.bit (b.get x).drive.value i = Bits.bit (b.get y).drive.value i

theorem Unitable.of_get {b b' : Board} {controlMask : Int} {ls : List Label} (h : b.Unitable controlMask ls)
    (hget : ∀ l ∈ ls, b'.get l = b.get l) : b'.Unitable controlMask ls where
  ne_nil := h.ne_nil
  inside l hl := by rw [hget l hl]; exact h.inside l hl
  time x hx y hy := by rw [time_eq, time_eq, hget x hx, hget y hy]; exact h.time x hx y hy
  block := by
    obtain ⟨r, hr⟩ := h.block
    exact ⟨r, hr ▸ List.filterMap_congr fun l hl => by rw [hget l hl]⟩
  agree i hi x hx y hy := by rw [hget x hx, hget y hy]; exact h.agree i hi x hx y hy

theorem Unitable.exists_unite {b : Board} {controlMask : Int} {ls : List Label} (h : b.Unitable controlMask ls) :
    ∃ r, (b.unite controlMask ls).outcome = .ok r := by
  cases ls with
  | nil => exact absurd rfl h.ne_nil
  | cons first rest =>
    have hzero : (⟨0, 0, 0, false⟩ : Drive).Inside := fun i hi => by simp at hi
    have hin : ∀ e ∈ (first :: rest).map fun l => (b.get l).drive, e.Inside := by
      intro e he
      obtain ⟨l, hl, rfl⟩ := List.mem_map.1 he
      exact h.inside l hl
    obtain ⟨block, hfilter⟩ := h.block
    have hblock : b.commonBlock (b.time first) none (first :: rest) = .ok block :=
      commonBlock_eq_ok.2 ⟨fun l hl => h.time l hl first List.mem_cons_self, hfilter⟩
    obtain ⟨d, hd⟩ : ∃ d, (unionDrive (b.time first) controlMask ⟨0, 0, 0, false⟩
        ((first :: rest).map fun l => (b.get l).drive)).outcome = .ok d := by
      refine unionDrive_ok hzero hin fun i hi x hx y hy hxi hyi => ?_
      -- the drive that the union starts from has no bits
      rcases List.mem_cons.1 hx with rfl | hx
      · simp at hxi
      rcases List.mem_cons.1 hy with rfl | hy
      · simp at hyi
      obtain ⟨l, hl, rfl⟩ := List.mem_map.1 hx
      obtain ⟨m, hm, rfl⟩ := List.mem_map.1 hy
      exact h.agree i hi l hl m hm hxi hyi
    have hinside : Bits.without d.value d.mask = 0 := Bits.without_eq_zero.2 (driveUnion_of_ok hzero hin hd).inside
    exact ⟨(b.size, _), unite_eq_ok.2 ⟨first, block, d, rfl, hblock, hd, hinside, rfl, rfl⟩⟩

end Board

end PulseSequencer
