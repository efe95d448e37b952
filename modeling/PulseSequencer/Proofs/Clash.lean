import PulseSequencer.Proofs.Collisions

/-!
# SETs that can be one

SETs are united in the order of a list, each compared with the union of those before it. That is as good as comparing
any two of them: the union fails exactly if two SETs clash, and otherwise every bit is that of the first SET which has
it.

* `Board.Differ`, `Board.Clash` : a bit that two SETs set differently, and two SETs that cannot be one;
* `Board.exists_unite_iff` : all other SETs can be united;
* `Attempt.Internal`, `Board.internal_unite` : a union that fails is the compiler's own fault;
* `Board.Combined`, `Board.unite_exact` : the outcome and the warnings of a union.
-/

namespace PulseSequencer

/-! ## Faults of the compiler itself -/

/-- A failure is an internal fault. -/
def Attempt.Internal {α : Type} (x : Attempt α) : Prop :=
  ∀ e, x.outcome = .error e → ∃ f, e = .fault f ∧ f.kind = .internal

namespace Attempt

variable {α β : Type}

theorem internal_of_ok {x : Attempt α} {a : α} (h : x.outcome = .ok a) : x.Internal := by
  intro e he
  cases h.symm.trans he

theorem internal_fail {f : Fault} (h : f.kind = .internal) : (fail f : Attempt α).Internal := by
  intro e he
  cases he
  exact ⟨f, rfl, h⟩

theorem internal_ofExcept {x : Except Fault α} (h : ∀ f, x = .error f → f.kind = .internal) :
    (ofExcept x).Internal := by
  cases x with
  | ok a => exact internal_of_ok rfl
  | error f => exact internal_fail (h f rfl)

theorem Internal.bind {x : Attempt α} {f : α → Attempt β} (hx : x.Internal)
    (hf : ∀ a, x.outcome = .ok a → (f a).Internal) : (x >>= f).Internal := by
  intro e he
  rw [outcome_bind] at he
  cases ha : x.outcome with
  | error e' =>
    rw [ha] at he
    cases he
    exact hx e ha
  | ok a =>
    rw [ha] at he
    exact hf a ha e he

theorem warnings_ofExcept (x : Except Fault α) : (ofExcept x).warnings = [] := by
  cases x <;> rfl

end Attempt

namespace Board

variable {b b' : Board} {controlMask : Int} {ls : List Label} {u : Label}

theorem kind_of_commonBlock {time : Int} {f : Fault} : ∀ {block : Option String},
    b.commonBlock time block ls = .error f → f.kind = .internal := by
  induction ls with
  | nil =>
    intro block h
    cases h
  | cons l ls ih =>
    intro block h
    unfold commonBlock at h
    simp only at h
    split at h
    · cases h
      rfl
    split at h
    · exact ih h
    split at h
    · exact ih h
    split at h
    · cases h
      rfl
    · cases h
      rfl

theorem internal_unionDrive {time : Int} {ds : List Drive} : ∀ {d : Drive},
    (unionDrive time controlMask d ds).Internal := by
  induction ds with
  | nil => exact Attempt.internal_of_ok rfl
  | cons e ds ih =>
    intro d
    unfold unionDrive
    simp only
    split
    · exact Attempt.internal_fail rfl
    split
    · exact (Attempt.internal_of_ok rfl).bind fun _ _ => ih
    · exact ih

theorem internal_unite (b : Board) (controlMask : Int) (ls : List Label) : (b.unite controlMask ls).Internal := by
  unfold unite
  split
  · exact Attempt.internal_fail rfl
  refine (Attempt.internal_ofExcept fun f hf => kind_of_commonBlock hf).bind fun block _ => ?_
  refine internal_unionDrive.bind fun d _ => ?_
  refine (Attempt.internal_ofExcept fun f hf => ?_).bind fun _ _ => Attempt.internal_of_ok rfl
  unfold addSet at hf
  split at hf
  · cases hf
  · cases hf
    rfl

/-! ## Clashes -/

/-- Two SETs set bit `i` to different values. -/
def Differ (b : Board) (i : Nat) (x y : Label) : Prop :=
  Bits.bit (b.get x).drive.mask i = true ∧ Bits.bit (b.get y).drive.mask i = true ∧
    Bits.bit (b.get x).drive.value i ≠ Bits.bit (b.get y).drive.value i

/-- Two of the SETs stand at different ticks, or are both in a block, or differ outside the control register. -/
inductive Clash (b : Board) (controlMask : Int) (ls : List Label) : Prop
  | ticks {x y : Label} (hx : x ∈ ls) (hy : y ∈ ls) (h : b.time x ≠ b.time y)
  | blocks {x y : Label} (h : [x, y].Sublist ls) (hx : (b.get x).block ≠ none) (hy : (b.get y).block ≠ none)
  | bits {x y : Label} {i : Nat} (hx : x ∈ ls) (hy : y ∈ ls) (h : b.Differ i x y)
      (hcontrol : Bits.bit controlMask i = false)

/-- The SETs agree on bit `i` if each agrees with the union of those before it. -/
theorem settles_drives_iff (hin : ∀ l ∈ ls, (b.get l).drive.Inside) {i : Nat} :
    Settles i ⟨0, 0, 0, false⟩ (ls.map fun l => (b.get l).drive) ↔ ∀ x ∈ ls, ∀ y ∈ ls, ¬ b.Differ i x y := by
  have hzero : (⟨0, 0, 0, false⟩ : Drive).Inside := fun i hi => by simp at hi
  rw [settles_iff hzero (List.forall_mem_map.2 hin)]
  constructor
  · rintro h x hx y hy ⟨hxi, hyi, hne⟩
    exact hne (h _ (List.mem_cons_of_mem _ (List.mem_map_of_mem hx)) _
      (List.mem_cons_of_mem _ (List.mem_map_of_mem hy)) hxi hyi)
  · intro h x hx y hy hxi hyi
    -- the drive that the union starts from has no bits
    rcases List.mem_cons.1 hx with rfl | hx
    · simp at hxi
    rcases List.mem_cons.1 hy with rfl | hy
    · simp at hyi
    obtain ⟨l, hl, rfl⟩ := List.mem_map.1 hx
    obtain ⟨m, hm, rfl⟩ := List.mem_map.1 hy
    by_contra hne
    exact h l hl m hm ⟨hxi, hyi, hne⟩

/-- At most one member of a list has a value if no two have one. -/
theorem exists_filterMap_eq_toList {α β : Type} {f : α → Option β} {xs : List α} :
    (∃ r : Option β, xs.filterMap f = r.toList) ↔ xs.Pairwise fun x y => f x = none ∨ f y = none := by
  induction xs with
  | nil => exact ⟨fun _ => .nil, fun _ => ⟨none, rfl⟩⟩
  | cons x xs ih =>
    rw [List.pairwise_cons]
    cases hx : f x with
    | none =>
      rw [List.filterMap_cons_none hx, ih]
      simp
    | some y =>
      rw [List.filterMap_cons_some hx]
      constructor
      · rintro ⟨r, hr⟩
        have hnil : xs.filterMap f = [] := by
          cases r with
          | none => cases hr
          | some z => exact (List.cons.inj hr).2
        have hnone := List.filterMap_eq_nil_iff.1 hnil
        exact ⟨fun z hz => .inr (hnone z hz), ih.1 ⟨none, hnil⟩⟩
      · rintro ⟨hnone, -⟩
        have hnil : xs.filterMap f = [] := List.filterMap_eq_nil_iff.2 fun z hz => (hnone z hz).resolve_left (by simp)
        exact ⟨some y, by rw [hnil]; rfl⟩

theorem unitable_iff (hne : ls ≠ []) (hin : ∀ l ∈ ls, (b.get l).drive.Inside) :
    b.Unitable controlMask ls ↔ ¬ b.Clash controlMask ls := by
  constructor
  · intro h hclash
    cases hclash with
    | ticks hx hy hne => exact hne (h.time _ hx _ hy)
    | blocks hsub hx hy =>
      have hpair := List.pairwise_iff_forall_sublist.1 (exists_filterMap_eq_toList.1 h.block) hsub
      exact hpair.elim hx hy
    | bits hx hy hdiffer hcontrol => exact hdiffer.2.2 (h.agree _ hcontrol _ hx _ hy hdiffer.1 hdiffer.2.1)
  · intro hclash
    refine ⟨hne, hin, fun x hx y hy => ?_, exists_filterMap_eq_toList.2 ?_, fun i hi x hx y hy hxi hyi => ?_⟩
    · by_contra h
      exact hclash (.ticks hx hy h)
    · refine List.pairwise_iff_forall_sublist.2 fun {x y} hsub => ?_
      by_contra h
      rw [not_or] at h
      exact hclash (.blocks hsub h.1 h.2)
    · by_contra h
      exact hclash (.bits hx hy ⟨hxi, hyi, h⟩ hi)

theorem unitable_of_unite (hin : ∀ l ∈ ls, (b.get l).drive.Inside)
    (h : (b.unite controlMask ls).outcome = .ok (u, b')) : b.Unitable controlMask ls := by
  obtain ⟨first, block, d, hfirst, hblock, hd, -⟩ := unite_eq_ok.1 h
  obtain ⟨htime, hblock⟩ := commonBlock_eq_ok.1 hblock
  refine ⟨fun hnil => ?_, hin, fun x hx y hy => ?_, ⟨block, hblock⟩, fun i hi x hx y hy hxi hyi => ?_⟩
  · rw [hnil] at hfirst
    cases hfirst
  · rw [htime x hx, htime y hy]
  · by_contra hne
    exact (settles_drives_iff hin).1 (exists_unionDrive_iff.1 ⟨d, hd⟩ i hi) x hx y hy ⟨hxi, hyi, hne⟩

/-- SETs can be united if no two of them clash. -/
theorem exists_unite_iff (hne : ls ≠ []) (hin : ∀ l ∈ ls, (b.get l).drive.Inside) :
    (∃ r, (b.unite controlMask ls).outcome = .ok r) ↔ ¬ b.Clash controlMask ls := by
  rw [← unitable_iff hne hin]
  exact ⟨fun ⟨_, h⟩ => unitable_of_unite hin h, Unitable.exists_unite⟩

/-! ## The union -/

/-- The SET `u` of `b'` is what the SETs `ls` of `b` are together. -/
structure Combined (b : Board) (ls : List Label) (u : Label) (b' : Board) : Prop where
  isSet : (b'.get u).isSet = true
  time : ∀ l ∈ ls, b'.time u = b.time l
  mask : ∀ i, Bits.bit (b'.get u).drive.mask i = ls.any fun l => Bits.bit (b.get l).drive.mask i
  /-- The first SET that has the bit. -/
  value : ∀ i, Bits.bit (b'.get u).drive.value i =
    match ls.find? fun l => Bits.bit (b.get l).drive.mask i with
    | some l => Bits.bit (b.get l).drive.value i
    | none => false
  /-- Both are numbers of 32 bits with a sign. -/
  signed : (Bits.bits (b'.get u).drive.mask).toInt = (b'.get u).drive.mask ∧
    (Bits.bits (b'.get u).drive.value).toInt = (b'.get u).drive.value
  block : (b'.get u).block.toList = ls.filterMap fun l => (b.get l).block
  reachedBy : (b'.get u).reachedBy = ls.flatMap fun l => (b.get l).reachedBy
  target : ∀ m ∈ (b'.get u).reachedBy, (b'.get m).target? = some u
  /-- Nothing else changes. -/
  others : ∀ m, m < b.size → m ∉ (b'.get u).reachedBy → b'.get m = b.get m

theorem signed_foldl_join {ds : List Drive} : ∀ {d : Drive},
    (Bits.bits d.mask).toInt = d.mask ∧ (Bits.bits d.value).toInt = d.value →
    (Bits.bits (ds.foldl join d).mask).toInt = (ds.foldl join d).mask ∧
      (Bits.bits (ds.foldl join d).value).toInt = (ds.foldl join d).value := by
  induction ds with
  | nil => exact id
  | cons e ds ih =>
    intro d _
    exact ih ⟨congrArg BitVec.toInt (Bits.bits_toInt _), congrArg BitVec.toInt (Bits.bits_toInt _)⟩

theorem drive_of_unite (h : (b.unite controlMask ls).outcome = .ok (u, b')) :
    (b'.get u).drive = (ls.map fun l => (b.get l).drive).foldl join ⟨0, 0, 0, false⟩ := by
  obtain ⟨first, block, d, -, -, hd, -, rfl, rfl⟩ := unite_eq_ok.1 h
  rw [get_foldl_modify (.inr (redirect_redirect b.size)), get_add_size, ← foldl_join_of_ok hd]
  split <;> rfl

theorem combined_of_unite (hin : ∀ l ∈ ls, (b.get l).drive.Inside)
    (hjumps : ∀ l ∈ ls, ∀ m ∈ (b.get l).reachedBy, (b.get m).target? ≠ none)
    (h : (b.unite controlMask ls).outcome = .ok (u, b')) : b.Combined ls u b' := by
  have hunites := unites_of_unite hin h
  obtain ⟨time, block, d, hcell, htime, hblock, hunion⟩ := hunites.cell
  have hreached : (b'.get u).reachedBy = ls.flatMap fun l => (b.get l).reachedBy := by rw [hcell]
  have hdrive : (b'.get u).drive = d := by rw [hcell]; rfl
  refine ⟨?_, fun l hl => ?_, fun i => ?_, fun i => ?_, ?_, ?_, hreached, fun m hm => ?_, fun m hm hnot => ?_⟩
  · rw [hcell]
    rfl
  · rw [time_eq, hcell, htime l hl]
  · rw [hdrive, hunion.mask, List.any_map]
    rfl
  · rw [hdrive]
    split
    · rename_i l hfind
      refine hunion.value i _ ?_
      rw [List.find?_map, Option.map_eq_some_iff]
      exact ⟨l, hfind, rfl⟩
    · rename_i hfind
      rw [← Bool.not_eq_true]
      intro hvalue
      obtain ⟨e, he, hei, -⟩ := hunion.exists_of_mask (hunion.inside i hvalue)
      obtain ⟨l, hl, rfl⟩ := List.mem_map.1 he
      exact List.find?_eq_none.1 hfind l hl hei
  · rw [drive_of_unite h]
    exact signed_foldl_join ⟨rfl, rfl⟩
  · rw [hcell, hblock]
  · rw [hreached] at hm
    obtain ⟨l, hl, hml⟩ := List.mem_flatMap.1 hm
    obtain ⟨g, hg⟩ := Option.ne_none_iff_exists'.1 (hjumps l hl m hml)
    rw [hunites.old m (lt_size_of_target? hg), if_pos hm, Instruction.target?_retarget, hg]
    rfl
  · rw [hreached] at hnot
    rw [hunites.old m hm, if_neg hnot]

/-- All warnings come from the union of the drives. -/
theorem warnings_unite {r : Label × Board} (h : (b.unite controlMask ls).outcome = .ok r) : ∃ time d,
    (unionDrive time controlMask ⟨0, 0, 0, false⟩ (ls.map fun l => (b.get l).drive)).outcome = .ok d ∧
      (b.unite controlMask ls).warnings =
        (unionDrive time controlMask ⟨0, 0, 0, false⟩ (ls.map fun l => (b.get l).drive)).warnings := by
  unfold unite at h ⊢
  cases ls with
  | nil => cases h
  | cons first rest =>
    obtain ⟨block, hblock, h⟩ := Attempt.bind_eq_ok.1 h
    obtain ⟨d, hd, h⟩ := Attempt.bind_eq_ok.1 h
    obtain ⟨⟨l, c⟩, hc, -⟩ := Attempt.bind_eq_ok.1 h
    refine ⟨b.time first, d, hd, ?_⟩
    rw [Attempt.warnings_bind_of_ok hblock, Attempt.warnings_ofExcept, List.nil_append,
      Attempt.warnings_bind_of_ok hd, Attempt.warnings_bind_of_ok hc, Attempt.warnings_ofExcept]
    exact List.append_nil _

/-- The union of SETs warns if two of them set a bit to different values. -/
theorem warnings_unite_iff (hin : ∀ l ∈ ls, (b.get l).drive.Inside)
    (h : (b.unite controlMask ls).outcome = .ok (u, b')) :
    (b.unite controlMask ls).warnings ≠ [] ↔ ∃ x ∈ ls, ∃ y ∈ ls, ∃ i, b.Differ i x y := by
  obtain ⟨time, d, hd, hwarnings⟩ := warnings_unite h
  rw [hwarnings, Ne, (quiet_unionDrive_iff hd).2]
  simp only [settles_drives_iff hin]
  constructor
  · intro hdiffer
    by_contra hnone
    exact hdiffer fun i x hx y hy h => hnone ⟨x, hx, y, hy, i, h⟩
  · rintro ⟨x, hx, y, hy, i, hdiffer⟩ hall
    exact hall i x hx y hy hdiffer

/-- The union of SETs that keep to their masks is exact. It fails, by an internal fault, if and only if two of the SETs
clash. Otherwise each bit is that of the first SET which has it, all jumps to one of the SETs go to the union, and it
warns if and only if two of the SETs differ on a bit of the control register. -/
theorem unite_exact (hne : ls ≠ [])
    (hin : ∀ l ∈ ls, Bits.without (b.get l).drive.value (b.get l).drive.mask = 0)
    (hjumps : ∀ l ∈ ls, ∀ m ∈ (b.get l).reachedBy, (b.get m).target? ≠ none) :
    ((∃ f, (b.unite controlMask ls).outcome = .error (.fault f) ∧ f.kind = .internal) ↔ b.Clash controlMask ls) ∧
      (¬ b.Clash controlMask ls → ∃ u b', (b.unite controlMask ls).outcome = .ok (u, b') ∧ b.Combined ls u b' ∧
        ((b.unite controlMask ls).warnings ≠ [] ↔
          ∃ x ∈ ls, ∃ y ∈ ls, ∃ i, b.Differ i x y ∧ Bits.bit controlMask i = true)) := by
  have hinside : ∀ l ∈ ls, (b.get l).drive.Inside := fun l hl => Bits.without_eq_zero.1 (hin l hl)
  have hiff : (∃ r, (b.unite controlMask ls).outcome = .ok r) ↔ ¬ b.Clash controlMask ls := exists_unite_iff hne hinside
  constructor
  · constructor
    · rintro ⟨f, hf, -⟩
      by_contra hclash
      obtain ⟨r, hr⟩ := hiff.2 hclash
      cases hr.symm.trans hf
    · intro hclash
      cases hout : (b.unite controlMask ls).outcome with
      | ok r => exact absurd hclash (hiff.1 ⟨r, hout⟩)
      | error e =>
        obtain ⟨f, rfl, hkind⟩ := internal_unite b controlMask ls e hout
        exact ⟨f, rfl, hkind⟩
  · intro hclash
    obtain ⟨⟨u, b'⟩, hout⟩ := hiff.2 hclash
    refine ⟨u, b', hout, combined_of_unite hinside hjumps hout, ?_⟩
    rw [warnings_unite_iff hinside hout]
    constructor
    · rintro ⟨x, hx, y, hy, i, hdiffer⟩
      refine ⟨x, hx, y, hy, i, hdiffer, ?_⟩
      by_contra hcontrol
      exact hclash (.bits hx hy hdiffer (by simpa using hcontrol))
    · rintro ⟨x, hx, y, hy, i, hdiffer, -⟩
      exact ⟨x, hx, y, hy, i, hdiffer⟩

/-- Two SETs of one tick that differ on bit 1, and a jump to the second one. -/
def overlap : Board :=
  ⟨#[⟨4, none, none, [], .set ⟨0b001, 0b011, 0, false⟩⟩, ⟨4, some "burst", none, [2], .set ⟨0b110, 0b110, 0, true⟩⟩,
    ⟨9, none, none, [], .jump true 0 0 1⟩]⟩

theorem unite_overlap :
    (∃ f, (overlap.unite 0 [0, 1]).outcome = .error (.fault f) ∧ f.kind = .internal) ∧
      ∃ u b', (overlap.unite 0b010 [0, 1]).outcome = .ok (u, b') ∧ overlap.Combined [0, 1] u b' ∧
        (overlap.unite 0b010 [0, 1]).warnings ≠ [] := by
  have hin : ∀ l ∈ [0, 1], Bits.without (overlap.get l).drive.value (overlap.get l).drive.mask = 0 := by decide
  have hjumps : ∀ l ∈ [0, 1], ∀ m ∈ (overlap.get l).reachedBy, (overlap.get m).target? ≠ none := by decide
  have hdiffer : overlap.Differ 1 0 1 := ⟨by decide, by decide, by decide⟩
  have hok : (overlap.unite 0b010 [0, 1]).outcome.isOk = true := by decide +kernel
  have hclash : ¬ overlap.Clash 0b010 [0, 1] := by
    refine (exists_unite_iff (by simp) fun l hl => Bits.without_eq_zero.1 (hin l hl)).1 ?_
    cases hr : (overlap.unite 0b010 [0, 1]).outcome with
    | ok r => exact ⟨r, rfl⟩
    | error e =>
      rw [hr] at hok
      cases hok
  obtain ⟨u, b', hout, hcombined, hwarn⟩ := (unite_exact (by simp) hin hjumps).2 hclash
  refine ⟨(unite_exact (by simp) hin hjumps).1.2 (.bits (by simp) (by simp) hdiffer (by decide)), u, b', hout,
    hcombined, hwarn.2 ⟨0, by simp, 1, by simp, 1, hdiffer, by decide⟩⟩

end Board

end PulseSequencer
