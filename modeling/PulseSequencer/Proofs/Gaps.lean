import PulseSequencer.Proofs.Attempt
import PulseSequencer.Proofs.Draft
import PulseSequencer.Proofs.Union

/-!
# Lists without gaps

`Covers` says what filling the gaps of a timed list gives: the list itself, with one instruction in front of every
member that does not follow at once. It is the induction along which all facts about filled lists are proved.

* `Draft.Filler`, `Draft.fillFrom_cons_eq_ok` : what can stand in a gap, and one step of the filling;
* `Draft.Covers`, `Draft.covers_of_fillFrom` : the relation, and that a filled list is in it;
* `Draft.Covers.increasing`, `Draft.Covers.split` : the ticks of a filled list, and its rest from a member on;
* `Draft.fillFrom_ok` : when filling succeeds;
* `Draft.Covers.gap_of_wait`, `Draft.Covers.wait_of_gap` : the WAITs are the gaps between successive ticks.
-/

namespace PulseSequencer.Draft

/-- The SET that holds the bus once `l` has been passed. -/
def heldAfter (b : Board) (held : Option Label) (l : Label) : Option Label := if (b.get l).isSet then some l else held

/-- What fills `gap` ticks after `last`: nothing, a SET that holds the bus, or a WAIT. -/
inductive Filler (b : Board) (last gap : Int) (held : Option Label) : Option Instruction → Prop
  | none (hgap : gap = 0) : Filler b last gap held none
  | hold {h : Label} (hgap : gap = 1) (hheld : held = some h)
      (hin : Bits.without (b.get h).drive.value (b.get h).drive.mask = 0) :
      Filler b last gap held (some ⟨last + 1, none, none, [], .set { (b.get h).drive with marker := false }⟩)
  | wait (hgap : 2 ≤ gap) : Filler b last gap held (some ⟨last + 1, none, none, [], .wait (.ofInt (gap - 1))⟩)

/-- The board with one more instruction, or with none. -/
def addFiller (b : Board) : Option Instruction → List Label × Board
  | none => ([], b)
  | some i => ([b.size], (b.add i).2)

theorem extends_addFiller (b : Board) (i : Option Instruction) : b.Extends (addFiller b i).2 := by
  cases i with
  | none => exact .refl b
  | some i => exact .add b i

theorem get_of_extends_addFiller {b c : Board} {i : Instruction} (h : (addFiller b (some i)).2.Extends c) :
    b.size < c.size ∧ c.get b.size = i := by
  have hlt : b.size < (addFiller b (some i)).2.size := by
    rw [addFiller, Board.size_add]
    exact Nat.lt_succ_self _
  exact ⟨lt_of_lt_of_le hlt h.size_le, (h.get_eq _ hlt).trans (Board.get_add_size b i)⟩

/-- A list is filled member by member. -/
theorem fillFrom_cons_eq_ok {last : Int} {held : Option Label} {b b' : Board} {l : Label} {ls filled : List Label} :
    fillFrom last held b (l :: ls) = .ok (filled, b') ↔ ∃ i rest, Filler b last (b.time l - last - 1) held i ∧
      fillFrom (b.time l) (heldAfter b held l) (addFiller b i).2 ls = .ok (rest, b') ∧
      filled = (addFiller b i).1 ++ l :: rest := by
  constructor
  · intro h
    unfold fillFrom at h
    simp only [] at h
    split at h
    · cases h
    split at h
    · rename_i hgap
      obtain ⟨⟨rest, c⟩, hfill, hc⟩ := Except.bind_eq_ok.1 h
      cases hc
      exact ⟨_, rest, .wait hgap, hfill, rfl⟩
    split at h
    · rename_i hgap
      cases held with
      | none => cases h
      | some g =>
        obtain ⟨⟨x, c⟩, hadd, h⟩ := Except.bind_eq_ok.1 h
        obtain ⟨hin, hadd⟩ := Board.addSet_eq_ok.1 hadd
        obtain ⟨rfl, rfl⟩ := Prod.mk.inj hadd
        obtain ⟨⟨rest, c⟩, hfill, hc⟩ := Except.bind_eq_ok.1 h
        cases hc
        change fillFrom _ _ (((b.add _).2.modify b.size) _) ls = _ at hfill
        rw [Board.modify_add] at hfill
        exact ⟨_, rest, .hold hgap rfl hin, hfill, rfl⟩
    · obtain ⟨⟨rest, c⟩, hfill, hc⟩ := Except.bind_eq_ok.1 h
      cases hc
      exact ⟨_, rest, .none (by omega), hfill, rfl⟩
  · rintro ⟨i, rest, hi, hfill, rfl⟩
    unfold fillFrom
    simp only []
    cases hi with
    | none hgap =>
      rw [if_neg (by omega), if_neg (by omega), if_neg (by omega)]
      exact Except.bind_eq_ok.2 ⟨_, hfill, rfl⟩
    | @hold g hgap hheld hin =>
      subst hheld
      rw [if_neg (by omega), if_neg (by omega), if_pos hgap]
      refine Except.bind_eq_ok.2 ⟨_, Board.addSet_eq_ok.2 ⟨hin, rfl⟩, Except.bind_eq_ok.2 ⟨(rest, b'), ?_, rfl⟩⟩
      change fillFrom _ _ (((b.add _).2.modify b.size) _) ls = _
      rw [Board.modify_add]
      exact hfill
    | wait hgap =>
      rw [if_neg (by omega), if_pos hgap]
      exact Except.bind_eq_ok.2 ⟨_, hfill, rfl⟩

/-- The labels `filled` cover all ticks after `last` up to the last one of `ls`, which they contain in order; `held` is
the SET before them. -/
inductive Covers (b : Board) : Int → Option Label → List Label → List Label → Prop
  | nil {last : Int} {held : Option Label} : Covers b last held [] []
  | next {last : Int} {held : Option Label} {l : Label} {ls filled : List Label} (htime : b.time l = last + 1)
      (rest : Covers b (b.time l) (heldAfter b held l) ls filled) : Covers b last held (l :: ls) (l :: filled)
  | hold {last : Int} {h x l : Label} {ls filled : List Label} (htime : b.time l = last + 2) (hlt : x < b.size)
      (hx : b.get x = ⟨last + 1, none, none, [], .set { (b.get h).drive with marker := false }⟩)
      (rest : Covers b (last + 1) (some h) (l :: ls) filled) : Covers b last (some h) (l :: ls) (x :: filled)
  | wait {last n : Int} {held : Option Label} {x l : Label} {ls filled : List Label} (hn : 1 ≤ n)
      (htime : b.time l = last + n + 2) (hlt : x < b.size) (hx : b.get x = ⟨last + 1, none, none, [], .wait (.ofInt n)⟩)
      (rest : Covers b (last + 1 + n) held (l :: ls) filled) : Covers b last held (l :: ls) (x :: filled)

theorem covers_of_fillFrom {ls : List Label} :
    ∀ {last : Int} {held : Option Label} {b b' : Board} {filled : List Label}, (∀ l ∈ ls, l < b.size) →
    (∀ h ∈ held, h < b.size) → fillFrom last held b ls = .ok (filled, b') →
    b.Extends b' ∧ Covers b' last held ls filled := by
  induction ls with
  | nil =>
    intro last held b b' filled _ _ h
    cases h
    exact ⟨.refl b, .nil⟩
  | cons l ls ih =>
    intro last held b b' filled hls hheld h
    have hl : l < b.size := hls l List.mem_cons_self
    have hnext : ∀ m ∈ heldAfter b held l, m < b.size := by
      unfold heldAfter
      split
      · simpa using hl
      · exact hheld
    obtain ⟨i, rest, hi, hfill, rfl⟩ := fillFrom_cons_eq_ok.1 h
    have hadded := extends_addFiller b i
    obtain ⟨hext, hcov⟩ := ih (fun m hm => lt_of_lt_of_le (hls m (List.mem_cons_of_mem l hm)) hadded.size_le)
      (fun m hm => lt_of_lt_of_le (hnext m hm) hadded.size_le) hfill
    have hkept : ∀ m < b.size, b'.get m = b.get m := (hadded.trans hext).get_eq
    have htime : b'.time l = b.time l := congrArg Instruction.time (hkept l hl)
    have hrest : Covers b' (b'.time l) (heldAfter b' held l) ls rest := by
      rwa [htime, heldAfter, hkept l hl]
    refine ⟨hadded.trans hext, ?_⟩
    cases hi with
    | none hgap => exact .next (by omega) hrest
    | @hold g hgap hg =>
      subst hg
      obtain ⟨hlt, hget⟩ := get_of_extends_addFiller hext
      refine .hold (by omega) hlt ?_ (.next (by omega) hrest)
      rw [hget, hkept g (hheld g rfl)]
    | wait hgap =>
      obtain ⟨hlt, hget⟩ := get_of_extends_addFiller hext
      exact .wait (by omega) (by omega) hlt hget (.next (by omega) hrest)

/-- Filling succeeds where the ticks increase and no gap comes before the first SET. -/
theorem fillFrom_ok {ls : List Label} : ∀ {last : Int} {held : Option Label} {b : Board},
    (∀ l ∈ ls, l < b.size ∧ last < b.time l ∧ ((b.get l).isSet = true → (b.get l).drive.Inside)) →
    (∀ h ∈ held, h < b.size ∧ (b.get h).drive.Inside) → (ls.Pairwise fun x y => b.time x < b.time y) →
    (held = none → ∀ l ∈ ls.head?, b.time l = last + 1 ∧ (b.get l).isSet = true) →
    ∃ r, fillFrom last held b ls = .ok r := by
  induction ls with
  | nil => exact fun {last held b} _ _ _ _ => ⟨([], b), rfl⟩
  | cons l ls ih =>
    intro last held b hls hheld hinc hfirst
    obtain ⟨hl, hlast, hin⟩ := hls l List.mem_cons_self
    obtain ⟨hlater, hrest⟩ := List.pairwise_cons.1 hinc
    have hnext : ∀ m ∈ heldAfter b held l, m < b.size ∧ (b.get m).drive.Inside := by
      unfold heldAfter
      split
      · rename_i hset
        simpa using ⟨hl, hin hset⟩
      · exact hheld
    have hsome : heldAfter b held l ≠ none := by
      unfold heldAfter
      split
      · simp
      · rename_i hset
        exact fun hnone => hset (hfirst hnone l rfl).2
    have hfiller : ∃ i, Filler b last (b.time l - last - 1) held i := by
      by_cases hwait : 2 ≤ b.time l - last - 1
      · exact ⟨_, .wait hwait⟩
      by_cases hhold : b.time l - last - 1 = 1
      · cases held with
        | none =>
          have := (hfirst rfl l rfl).1
          omega
        | some g => exact ⟨_, .hold hhold rfl (Bits.without_eq_zero.2 (hheld g rfl).2)⟩
      · exact ⟨_, .none (by omega)⟩
    obtain ⟨i, hi⟩ := hfiller
    have hadded := extends_addFiller b i
    have hkept : ∀ m < b.size, (addFiller b i).2.get m = b.get m := hadded.get_eq
    have htime : ∀ m ∈ ls, (addFiller b i).2.time m = b.time m := fun m hm =>
      congrArg Instruction.time (hkept m (hls m (List.mem_cons_of_mem _ hm)).1)
    have hfill : ∃ r, fillFrom (b.time l) (heldAfter b held l) (addFiller b i).2 ls = .ok r := by
      refine ih (fun m hm => ?_) (fun m hm => ?_) ?_ fun hnone => absurd hnone hsome
      · obtain ⟨hm', -, hin'⟩ := hls m (List.mem_cons_of_mem _ hm)
        rw [htime m hm, hkept m hm']
        exact ⟨lt_of_lt_of_le hm' hadded.size_le, hlater m hm, hin'⟩
      · obtain ⟨hm', hin'⟩ := hnext m hm
        rw [hkept m hm']
        exact ⟨lt_of_lt_of_le hm' hadded.size_le, hin'⟩
      · refine hrest.imp_of_mem fun hx hy hlt => ?_
        rwa [htime _ hx, htime _ hy]
    obtain ⟨⟨rest, b'⟩, hfill⟩ := hfill
    exact ⟨_, fillFrom_cons_eq_ok.2 ⟨i, rest, hi, hfill, rfl⟩⟩

/-! ## Successive ticks -/

theorem pair_infix_cons_cons {α : Type} {a c x y : α} {xs : List α} :
    [a, c] <:+: x :: y :: xs ↔ (a = x ∧ c = y) ∨ [a, c] <:+: y :: xs := by
  rw [List.infix_cons_iff]
  simp [List.cons_prefix_cons]

/-- Successive members of an increasing list have no other between them. -/
theorem pair_infix_iff {a c : Int} {xs : List Int} (h : xs.Pairwise (· < ·)) :
    [a, c] <:+: xs ↔ a ∈ xs ∧ c ∈ xs ∧ a < c ∧ ∀ t ∈ xs, ¬ (a < t ∧ t < c) := by
  induction xs with
  | nil => simp
  | cons x xs ih =>
    obtain ⟨hx, hxs⟩ := List.pairwise_cons.1 h
    cases xs with
    | nil =>
      refine ⟨fun hpair => by simpa using hpair.length_le, fun ⟨ha, hc, hlt, _⟩ => ?_⟩
      rw [List.mem_singleton.1 ha, List.mem_singleton.1 hc] at hlt
      exact absurd hlt (lt_irrefl x)
    | cons y ys =>
      rw [pair_infix_cons_cons, ih hxs]
      have hy : ∀ t ∈ ys, y < t := (List.pairwise_cons.1 hxs).1
      have hxy := hx y List.mem_cons_self
      constructor
      · rintro (⟨rfl, rfl⟩ | ⟨ha, hc, hlt, hnone⟩)
        · refine ⟨by simp, by simp, hxy, ?_⟩
          simp only [List.forall_mem_cons]
          exact ⟨by omega, by omega, fun t ht => by have := hy t ht; omega⟩
        · refine ⟨List.mem_cons_of_mem _ ha, List.mem_cons_of_mem _ hc, hlt, List.forall_mem_cons.2 ⟨?_, hnone⟩⟩
          have := hx a ha
          omega
      · rintro ⟨ha, hc, hlt, hnone⟩
        have hc' : c ∈ y :: ys := by
          rcases List.mem_cons.1 hc with rfl | hc
          · rcases List.mem_cons.1 ha with rfl | ha
            · omega
            · have := hx a ha
              omega
          · exact hc
        rcases List.mem_cons.1 ha with rfl | ha
        · refine .inl ⟨rfl, ?_⟩
          have hgap := hnone y (by simp)
          rcases List.mem_cons.1 hc' with rfl | hc'
          · rfl
          · have := hy c hc'
            omega
        · exact .inr ⟨ha, hc', hlt, fun t ht => hnone t (List.mem_cons_of_mem _ ht)⟩

namespace Covers

variable {b : Board} {last : Int} {held : Option Label} {ls filled : List Label}

theorem lt_time (h : Covers b last held ls filled) : ∀ x ∈ filled, last < b.time x := by
  induction h with
  | nil => simp
  | next htime _ ih =>
    intro x hx
    rcases List.mem_cons.1 hx with rfl | hx
    · omega
    · have := ih x hx
      omega
  | hold _ _ hget _ ih | wait _ _ _ hget _ ih =>
    intro x hx
    rcases List.mem_cons.1 hx with rfl | hx
    · rw [Board.time, hget]
      simp
    · have := ih x hx
      omega

theorem increasing (h : Covers b last held ls filled) : filled.Pairwise fun x y => b.time x < b.time y := by
  induction h with
  | nil => exact .nil
  | next _ rest ih => exact .cons (fun x hx => rest.lt_time x hx) ih
  | hold _ _ hget rest ih =>
    refine .cons (fun x hx => ?_) ih
    have := rest.lt_time x hx
    rwa [Board.time, hget]
  | wait hn _ _ hget rest ih =>
    refine .cons (fun x hx => ?_) ih
    have := rest.lt_time x hx
    rw [Board.time, hget]
    simp only
    omega

theorem lt_size (h : Covers b last held ls filled) (hls : ∀ l ∈ ls, l < b.size) : ∀ x ∈ filled, x < b.size := by
  induction h with
  | nil => simp
  | next _ _ ih =>
    intro x hx
    rcases List.mem_cons.1 hx with rfl | hx
    · exact hls _ List.mem_cons_self
    · exact ih (fun l hl => hls l (List.mem_cons_of_mem _ hl)) x hx
  | hold _ hlt _ _ ih | wait _ _ hlt _ _ ih =>
    intro x hx
    rcases List.mem_cons.1 hx with rfl | hx
    · exact hlt
    · exact ih hls x hx

theorem subset (h : Covers b last held ls filled) : ∀ l ∈ ls, l ∈ filled := by
  induction h with
  | nil => simp
  | next _ _ ih =>
    intro l hl
    rcases List.mem_cons.1 hl with rfl | hl
    · exact List.mem_cons_self
    · exact List.mem_cons_of_mem _ (ih l hl)
  | hold _ _ _ _ ih | wait _ _ _ _ _ ih => exact fun l hl => List.mem_cons_of_mem _ (ih l hl)

/-- Nothing is filled in behind the list. -/
theorem getLast?_eq (h : Covers b last held ls filled) : filled.getLast? = ls.getLast? := by
  induction h with
  | nil => rfl
  | next _ _ ih => rw [List.getLast?_cons, List.getLast?_cons, ih]
  | hold _ _ _ _ ih | wait _ _ _ _ _ ih => rw [List.getLast?_cons, ih, List.getLast?_cons, Option.getD_some]

/-- What fills a gap is a SET or a WAIT. -/
theorem mem_or_filler (h : Covers b last held ls filled) :
    ∀ x ∈ filled, x ∈ ls ∨ (b.get x).isSet = true ∨ ∃ duration, (b.get x).action = .wait duration := by
  induction h with
  | nil => simp
  | next _ _ ih =>
    intro x hx
    rcases List.mem_cons.1 hx with rfl | hx
    · exact .inl List.mem_cons_self
    · exact (ih x hx).imp_left (List.mem_cons_of_mem _)
  | hold _ _ hget _ ih =>
    intro x hx
    rcases List.mem_cons.1 hx with rfl | hx
    · exact .inr (.inl (by rw [hget]; rfl))
    · exact ih x hx
  | wait _ _ _ hget _ ih =>
    intro x hx
    rcases List.mem_cons.1 hx with rfl | hx
    · exact .inr (.inr ⟨_, by rw [hget]⟩)
    · exact ih x hx

theorem mem_or_target? (h : Covers b last held ls filled) :
    ∀ x ∈ filled, x ∈ ls ∨ (b.get x).target? = none := by
  intro x hx
  rcases h.mem_or_filler x hx with hmem | hset | ⟨duration, hwait⟩
  · exact .inl hmem
  · exact .inr (Instruction.target?_of_isSet hset)
  · exact .inr (by rw [Instruction.target?, hwait])

/-- What the SETs of a list drive, those of the filled list drive too. -/
theorem drive_of_filled {P : Int → Prop} (h : Covers b last held ls filled)
    (hheld : ∀ g ∈ held, P (b.get g).drive.value) (hls : ∀ l ∈ ls, (b.get l).isSet = true → P (b.get l).drive.value) :
    ∀ x ∈ filled, (b.get x).isSet = true → P (b.get x).drive.value := by
  induction h with
  | nil => simp
  | @next last held l ls filled htime _ ih =>
    have hrest := ih (fun g hg => ?_) fun x hx => hls x (List.mem_cons_of_mem _ hx)
    · exact List.forall_mem_cons.2 ⟨hls l List.mem_cons_self, hrest⟩
    · unfold heldAfter at hg
      split at hg
      · cases hg
        exact hls l List.mem_cons_self ‹_›
      · exact hheld g hg
  | @hold last g x l ls filled htime _ hx _ ih =>
    refine List.forall_mem_cons.2 ⟨fun _ => ?_, ih hheld hls⟩
    rw [hx]
    exact hheld g rfl
  | @wait last n held x l ls filled hn htime _ hx _ ih =>
    refine List.forall_mem_cons.2 ⟨fun hset => ?_, ih hheld hls⟩
    rw [hx] at hset
    cases hset

/-- From a member on, the rest of the filled list covers the rest of the list. -/
theorem split (h : Covers b last held ls filled) {g : Label} (hg : g ∈ ls) :
    ∃ pre post done rest held', ls = pre ++ g :: post ∧ filled = done ++ g :: rest ∧
      Covers b (b.time g - 1) held' (g :: post) (g :: rest) := by
  induction h with
  | nil => cases hg
  | @next last held l ls filled htime hrest ih =>
    rcases List.mem_cons.1 hg with rfl | hg
    · exact ⟨[], ls, [], filled, held, rfl, rfl, .next (by omega) hrest⟩
    · obtain ⟨pre, post, done, rest, held', h1, h2, h3⟩ := ih hg
      exact ⟨l :: pre, post, l :: done, rest, held', by rw [h1]; rfl, by rw [h2]; rfl, h3⟩
  | @hold _ _ x _ _ _ _ _ _ _ ih | @wait _ _ _ x _ _ _ _ _ _ _ _ ih =>
    obtain ⟨pre, post, done, rest, held', h1, h2, h3⟩ := ih hg
    exact ⟨pre, post, x :: done, rest, held', h1, by rw [h2]; rfl, h3⟩

/-- What stands in front of a member is a WAIT for as long as the gap leaves open. -/
theorem exists_filler {l : Label} (h : Covers b last held (l :: ls) filled) :
    ∃ filler rest held', filled = filler ++ l :: rest ∧ Covers b (b.time l) held' ls rest ∧
      (∀ x ∈ filler, ∀ duration, (b.get x).action = .wait duration →
        ∃ n, 1 ≤ n ∧ duration = .ofInt n ∧ b.time l = last + n + 2) ∧
      ∀ n, 1 ≤ n → b.time l = last + n + 2 → ∃ x ∈ filler, (b.get x).action = .wait (.ofInt n) := by
  generalize hls : l :: ls = ls' at h
  induction h with
  | nil => cases hls
  | next htime rest _ =>
    cases hls
    exact ⟨[], _, _, rfl, rest, by simp, fun n hn hgap => by omega⟩
  | @hold last g x m ms filled htime _ hx _ ih =>
    obtain ⟨filler, rest, held', rfl, hrest, hwait, -⟩ := ih hls
    obtain ⟨rfl, rfl⟩ := List.cons.inj hls
    refine ⟨x :: filler, rest, held', rfl, hrest, fun y hy duration hact => ?_, fun n hn hgap => by omega⟩
    rcases List.mem_cons.1 hy with rfl | hy
    · rw [hx] at hact
      cases hact
    · obtain ⟨n, hn, -, hgap⟩ := hwait y hy duration hact
      omega
  | @wait last n held x m ms filled hn htime _ hx _ ih =>
    obtain ⟨filler, rest, held', rfl, hrest, hwait, -⟩ := ih hls
    obtain ⟨rfl, rfl⟩ := List.cons.inj hls
    refine ⟨x :: filler, rest, held', rfl, hrest, fun y hy duration hact => ?_, fun n' hn' hgap => ?_⟩
    · rcases List.mem_cons.1 hy with rfl | hy
      · rw [hx] at hact
        cases hact
        exact ⟨n, hn, rfl, htime⟩
      · obtain ⟨n', hn', -, hgap⟩ := hwait y hy duration hact
        omega
    · have : n' = n := by omega
      subst this
      exact ⟨x, List.mem_cons_self, by rw [hx]⟩

/-- A WAIT fills the gap between two successive ticks. -/
theorem gap_of_wait : ∀ {ls : List Label} {last : Int} {held : Option Label} {filled : List Label},
    Covers b last held ls filled → (∀ l ∈ ls, ∀ duration, (b.get l).action ≠ .wait duration) →
    ∀ x ∈ filled, ∀ duration, (b.get x).action = .wait duration →
      ∃ a n, 1 ≤ n ∧ duration = .ofInt n ∧ [a, a + n + 2] <:+: last :: ls.map b.time := by
  intro ls
  induction ls with
  | nil =>
    intro last held filled h _ x hx
    cases h
    cases hx
  | cons l ls ih =>
    intro last held filled h hls x hx duration hact
    obtain ⟨filler, rest, held', rfl, hrest, hwait, -⟩ := h.exists_filler
    rcases List.mem_append.1 hx with hx | hx
    · obtain ⟨n, hn, hduration, hgap⟩ := hwait x hx duration hact
      exact ⟨last, n, hn, hduration, pair_infix_cons_cons.2 (.inl ⟨rfl, hgap.symm⟩)⟩
    · rcases List.mem_cons.1 hx with rfl | hx
      · exact absurd hact (hls x List.mem_cons_self duration)
      · obtain ⟨a, n, hn, hduration, hgap⟩ :=
          ih hrest (fun m hm => hls m (List.mem_cons_of_mem _ hm)) x hx duration hact
        exact ⟨a, n, hn, hduration, pair_infix_cons_cons.2 (.inr hgap)⟩

/-- Two successive ticks that leave room for it have a WAIT between them. -/
theorem wait_of_gap {a n : Int} (hn : 1 ≤ n) : ∀ {ls : List Label} {last : Int} {held : Option Label}
    {filled : List Label}, Covers b last held ls filled → [a, a + n + 2] <:+: last :: ls.map b.time →
    ∃ x ∈ filled, (b.get x).action = .wait (.ofInt n) := by
  intro ls
  induction ls with
  | nil =>
    intro last held filled _ hgap
    have := hgap.length_le
    simp at this
  | cons l ls ih =>
    intro last held filled h hgap
    obtain ⟨filler, rest, held', rfl, hrest, -, hwait⟩ := h.exists_filler
    rcases pair_infix_cons_cons.1 hgap with ⟨rfl, hl⟩ | hgap
    · obtain ⟨x, hx, hact⟩ := hwait n hn hl.symm
      exact ⟨x, List.mem_append_left _ hx, hact⟩
    · obtain ⟨x, hx, hact⟩ := ih hrest hgap
      exact ⟨x, List.mem_append_right _ (List.mem_cons_of_mem _ hx), hact⟩

end Covers

/-! ## Filling a draft -/

theorem covers_of_fillGaps {d filled : Draft} (hlist : ∀ l ∈ d.list, l < d.board.size)
    (hinc : d.list.Pairwise fun x y => d.board.time x < d.board.time y) (h : d.fillGaps = .ok filled) :
    d.board.Extends filled.board ∧ Covers filled.board (-1) none d.list filled.list := by
  rw [fillGaps, sorted_of_increasing hinc] at h
  obtain ⟨⟨ls, b⟩, hfill, hd⟩ := Except.bind_eq_ok.1 h
  cases hd
  exact covers_of_fillFrom hlist (by simp) hfill

end PulseSequencer.Draft
