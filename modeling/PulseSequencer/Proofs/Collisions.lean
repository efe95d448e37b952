import PulseSequencer.Proofs.Outline

/-!
# Merges without collisions

Where no warning tells of colliding control writes, the SETs that are united agree on all bits that they share, so that
every one of them shows in the union.

* `Warning.collides`, `Attempt.Quiet` : tasks without such a warning;
* `Board.Agree` : SETs that agree on the bits they share;
* `Board.quiet_unionDrive_iff` : the warnings of a union of drives;
* `Draft.agree_of_mergeSets` : the SETs that a quiet merge unites;
* `Draft.Merged.value_heir`, `Draft.Merged.exists_value` : the bits of a union and of its members.
-/

namespace PulseSequencer

/-- The warning that two control writes share a SET. -/
def Warning.collides (w : Warning) : Bool := "Control register writes collide".toList.isPrefixOf w.message.toList

/-- No warning of colliding control writes. -/
def Attempt.Quiet {α : Type} (x : Attempt α) : Prop := ∀ w ∈ x.warnings, w.collides = false

namespace Attempt

variable {α β : Type}

theorem warnings_bind_of_ok {x : Attempt α} {f : α → Attempt β} {a : α} (hx : x.outcome = .ok a) :
    (x >>= f).warnings = x.warnings ++ (f a).warnings := by
  show (Attempt.bind x f).warnings = _
  unfold Attempt.bind
  rw [hx]

theorem Quiet.of_bind {x : Attempt α} {f : α → Attempt β} {a : α} (h : (x >>= f).Quiet) (hx : x.outcome = .ok a) :
    x.Quiet ∧ (f a).Quiet := by
  unfold Quiet at h
  rw [warnings_bind_of_ok hx, List.forall_mem_append] at h
  exact h

end Attempt

namespace Board

/-- The SETs agree on the bits they share. -/
def Agree (b : Board) (ls : List Label) : Prop :=
  ∀ x ∈ ls, ∀ y ∈ ls, ∀ i, Bits.bit (b.get x).drive.mask i = true → Bits.bit (b.get y).drive.mask i = true →
    Bits.bit (b.get x).drive.value i = Bits.bit (b.get y).drive.value i

theorem collides_message (rest : String) (subject : Option String) :
    Warning.collides ⟨"Control register writes collide at tick " ++ rest, subject⟩ = true := by
  show List.isPrefixOf _ _ = true
  have hsplit : "Control register writes collide at tick ".toList =
      "Control register writes collide".toList ++ " at tick ".toList := by decide
  rw [List.isPrefixOf_iff_prefix, String.toList_append, hsplit, List.append_assoc]
  exact List.prefix_append _ _

/-- A step of the union warns of a conflict, and of nothing else. -/
theorem unionDrive_cons_of_ok {time controlMask : Int} {d e r : Drive} {ds : List Drive}
    (h : (unionDrive time controlMask d (e :: ds)).outcome = .ok r) :
    ∃ ws, (unionDrive time controlMask d (e :: ds)).warnings =
      ws ++ (unionDrive time controlMask (join d e) ds).warnings ∧ (ws = [] ↔ ∀ i, Bits.bit (conflict d e) i = false) ∧
      ∀ w ∈ ws, w.collides = true := by
  have hclash := Bits.without_eq_zero.2 (unionDrive_cons_eq_ok.1 h).1
  have hzero : conflict d e = 0 ↔ ∀ i, Bits.bit (conflict d e) i = false := by
    simp only [conflict, Bits.and_eq_zero, Bits.bit_and]
  rw [unionDrive]
  simp only
  split
  · rename_i hne
    exact absurd hclash hne
  split
  · rename_i hconflict
    refine ⟨_, rfl, ?_, ?_⟩
    · rw [← hzero]
      exact ⟨fun h => (by cases h), fun h => absurd h hconflict⟩
    · intro w hw
      rw [List.mem_singleton.1 hw, String.append_assoc, String.append_assoc, collides_message]
  · rename_i hconflict
    exact ⟨[], rfl, ⟨fun _ => hzero.1 (not_not.1 hconflict), fun _ => rfl⟩, by simp⟩

/-- A union is quiet if no drive differs from those before it, the control register included. -/
theorem quiet_unionDrive_iff {time controlMask : Int} {ds : List Drive} : ∀ {d r : Drive},
    (unionDrive time controlMask d ds).outcome = .ok r →
    ((unionDrive time controlMask d ds).Quiet ↔ ∀ i, Settles i d ds) ∧
      ((unionDrive time controlMask d ds).warnings = [] ↔ ∀ i, Settles i d ds) := by
  induction ds with
  | nil =>
    intro d r _
    exact ⟨⟨fun _ _ => trivial, fun _ => nofun⟩, ⟨fun _ _ => trivial, fun _ => rfl⟩⟩
  | cons e ds ih =>
    intro d r h
    obtain ⟨ws, hws, hnil, hcollides⟩ := unionDrive_cons_of_ok h
    obtain ⟨hquiet, hwarnings⟩ := ih (unionDrive_cons_eq_ok.1 h).2
    have hall : (∀ w ∈ ws, w.collides = false) ↔ ws = [] := by
      constructor
      · intro hw
        cases ws with
        | nil => rfl
        | cons w ws =>
          have := hw w List.mem_cons_self
          rw [hcollides w List.mem_cons_self] at this
          cases this
      · rintro rfl
        exact nofun
    unfold Attempt.Quiet at hquiet ⊢
    rw [hws, List.forall_mem_append, List.append_eq_nil_iff, hall, hnil, hquiet, hwarnings]
    simp only [Settles, forall_and, and_self]

theorem agree_of_unite {b : Board} {controlMask : Int} {ls : List Label} {r : Label × Board}
    (hin : ∀ l ∈ ls, (b.get l).drive.Inside) (hquiet : (b.unite controlMask ls).Quiet)
    (h : (b.unite controlMask ls).outcome = .ok r) : b.Agree ls := by
  unfold unite at h hquiet
  split at h
  · cases h
  rename_i first rest
  obtain ⟨block, hblock, h⟩ := Attempt.bind_eq_ok.1 h
  obtain ⟨d, hd, h⟩ := Attempt.bind_eq_ok.1 h
  have hsettles := (quiet_unionDrive_iff hd).1.1 ((hquiet.of_bind hblock).2.of_bind hd).1
  intro x hx y hy i
  refine (settles_iff (fun i hi => by simp at hi) fun e he => ?_).1 (hsettles i) _
    (List.mem_cons_of_mem _ (List.mem_map_of_mem hx)) _ (List.mem_cons_of_mem _ (List.mem_map_of_mem hy))
  obtain ⟨l, hl, rfl⟩ := List.mem_map.1 he
  exact hin l hl

end Board

namespace Draft

theorem agree_of_foldlM {controlMask : Int} {ls : List Label} {gs : List (List Label)} :
    ∀ {us : List Label} {b : Board} {r : List Label × Board}, Mergeable b ls gs →
      (gs.foldlM (uniteGroup controlMask) (us, b)).Quiet →
      (gs.foldlM (uniteGroup controlMask) (us, b)).outcome = .ok r → ∀ g ∈ gs, b.Agree g := by
  induction gs with
  | nil => exact fun _ _ _ g hg => absurd hg List.not_mem_nil
  | cons g gs ih =>
    intro us b r hm hquiet h
    obtain ⟨⟨us₁, b₁⟩, h1, h2⟩ := Attempt.foldlM_cons_eq_ok.1 h
    rw [List.foldlM_cons] at hquiet
    obtain ⟨hquiet₁, hquiet₂⟩ := hquiet.of_bind h1
    by_cases hone : ∃ u, g = [u]
    · obtain ⟨u, rfl⟩ := hone
      cases h1
      refine List.forall_mem_cons.2 ⟨fun x hx y hy i _ _ => ?_, ih hm.tail hquiet₂ h2⟩
      rw [List.mem_singleton.1 hx, List.mem_singleton.1 hy]
    · rw [uniteGroup_of_ne fun u hu => hone ⟨u, hu⟩] at h1 hquiet₁
      obtain ⟨⟨u, b₂⟩, hunite, hpure⟩ := Attempt.bind_eq_ok.1 h1
      obtain ⟨rfl, rfl⟩ := Prod.mk.inj (Except.ok.inj hpure)
      have hin : ∀ l ∈ g, (b.get l).drive.Inside := fun l hl => (hm.sets g List.mem_cons_self l hl).2.2
      have hu := Board.unites_of_unite hin hunite
      refine List.forall_mem_cons.2 ⟨Board.agree_of_unite hin (hquiet₁.of_bind hunite).1 hunite, fun g' hg' => ?_⟩
      have hget : ∀ l ∈ g', b₂.get l = b.get l := fun l hl => by
        obtain ⟨hls, hset, -⟩ := hm.sets g' (List.mem_cons_of_mem _ hg') l hl
        exact hu.get_of_isSet (hm.valid _ hls) hset
      intro x hx y hy
      have hrest := ih (hm.of_unites hu) hquiet₂ h2 g' hg' x hx y hy
      rwa [hget x hx, hget y hy] at hrest

/-- The SETs that a quiet merge unites agree on the bits they share. -/
theorem agree_of_mergeSets {d d' : Draft} {controlMask : Int} (hd : d.Linked) (hin : d.SetsInside)
    (hquiet : (d.mergeSets controlMask).Quiet) (h : (d.mergeSets controlMask).outcome = .ok d') :
    ∀ g ∈ d.gathered, d.board.Agree g := by
  obtain ⟨r, hr, -⟩ := Attempt.bind_eq_ok.1 h
  exact agree_of_foldlM (hd.mergeable hin) (hquiet.of_bind hr).1 hr

namespace Merged

variable {d d' : Draft} {us : List Label} {heir : Label → Label} (hm : d.Merged d' us heir) (hd : d.Linked)
  (hin : d.SetsInside)

include hm hd hin

/-- The union has the bits of its members, if they agree. -/
theorem value_heir (hagree : ∀ g ∈ d.gathered, d.board.Agree g) {l : Label} (hl : l ∈ d.sets) {i : Nat}
    (hi : Bits.bit (d.board.get l).drive.mask i = true) :
    Bits.bit (d'.board.get (heir l)).drive.value i = Bits.bit (d.board.get l).drive.value i := by
  have hpair := hm.pair_heir hd hin hl
  have hunion := (hm.heads hd hin hl).drive
  have hmem : l ∈ members d.board d.sets (keyOf d.board d.sets l) := mem_members_keyOf hl
  have hmask : Bits.bit (d'.board.get (heir l)).drive.mask i = true := by
    rw [hunion.mask, List.any_eq_true]
    exact ⟨_, List.mem_map_of_mem hmem, hi⟩
  obtain ⟨e, he, hei, hvalue⟩ := hunion.exists_of_mask hmask
  obtain ⟨x, hx, rfl⟩ := List.mem_map.1 he
  rw [hvalue]
  exact hagree _ (List.of_mem_zip hpair).1 x hx l hmem i hei hi

/-- A bit of the union is a bit of one of its members. -/
theorem exists_value {u : Label} (hu : u ∈ d'.sets) {i : Nat} (hi : Bits.bit (d'.board.get u).drive.value i = true) :
    ∃ l ∈ d.sets, heir l = u ∧ Bits.bit (d.board.get l).drive.value i = true := by
  obtain ⟨l, hl, rfl⟩ := (hm.mem_sets_iff hd hin).1 hu
  have hunion := (hm.heads hd hin hl).drive
  obtain ⟨e, he, -, hvalue⟩ := hunion.exists_of_mask (hunion.inside i hi)
  obtain ⟨x, hx, rfl⟩ := List.mem_map.1 he
  have hxsets : x ∈ d.sets := ((mem_members (keyOf_mem_groups hl)).1 hx).1
  exact ⟨x, hxsets, hm.heir_of_mem hd hin (hm.pair_heir hd hin hl) hx, hvalue ▸ hi⟩

end Merged

end Draft

end PulseSequencer
