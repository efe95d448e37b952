import Mathlib
import PulseSequencer.Fault

/-!
# Outcomes of attempts

A chain of attempts succeeds exactly when each of its parts does, so a successful run is taken apart by `rw` or
`obtain`.

* `Attempt.bind_eq_ok`, `Except.bind_eq_ok` : a successful bind is two successful parts;
* `Except.mapM_eq_ok`, `Except.flatMapM_eq_ok` : a successful traversal is one success for each element;
* `Attempt.foldlM_ok_induction` : what every step of a fold keeps holds at its end.
-/

namespace PulseSequencer

/-! ## Results with faults only -/

theorem Except.bind_eq_ok {ε α β : Type} {x : Except ε α} {f : α → Except ε β} {r : β} :
    (x >>= f) = .ok r ↔ ∃ a, x = .ok a ∧ f a = .ok r := by
  cases x with
  | error e =>
    constructor
    · intro h; cases h
    · rintro ⟨_, h, _⟩; cases h
  | ok a =>
    constructor
    · intro h; exact ⟨a, rfl, h⟩
    · rintro ⟨_, h, h'⟩; cases h; exact h'

theorem Except.bind_eq_error {ε α β : Type} {x : Except ε α} {f : α → Except ε β} {e : ε} :
    (x >>= f) = .error e ↔ x = .error e ∨ ∃ a, x = .ok a ∧ f a = .error e := by
  cases x with
  | error e' =>
    constructor
    · intro h; cases h; exact .inl rfl
    · rintro (h | ⟨_, h, _⟩)
      · cases h; rfl
      · cases h
  | ok a =>
    constructor
    · intro h; exact .inr ⟨a, rfl, h⟩
    · rintro (h | ⟨_, h, h'⟩)
      · cases h
      · cases h; exact h'

theorem Except.pure_eq_ok {ε α : Type} {a r : α} : (pure a : Except ε α) = .ok r ↔ a = r :=
  ⟨fun h => (by cases h; rfl), fun h => (by rw [h]; rfl)⟩

theorem Except.mapM_eq_ok {ε α β : Type} {f : α → Except ε β} {xs : List α} : ∀ {ys : List β},
    xs.mapM f = .ok ys ↔ List.Forall₂ (fun x y => f x = .ok y) xs ys := by
  induction xs with
  | nil =>
    intro ys
    rw [List.mapM_nil, pure_eq_ok, List.forall₂_nil_left_iff, eq_comm]
  | cons x xs ih =>
    intro ys
    rw [List.mapM_cons, bind_eq_ok, List.forall₂_cons_left_iff]
    constructor
    · rintro ⟨y, hy, h⟩
      obtain ⟨zs, hzs, h⟩ := bind_eq_ok.1 h
      exact ⟨y, zs, hy, ih.1 hzs, (pure_eq_ok.1 h).symm⟩
    · rintro ⟨y, zs, hy, hzs, rfl⟩
      exact ⟨y, hy, bind_eq_ok.2 ⟨zs, ih.2 hzs, rfl⟩⟩

theorem Except.exists_of_mapM_eq_error {ε α β : Type} {f : α → Except ε β} {xs : List α} {e : ε}
    (h : xs.mapM f = .error e) : ∃ x ∈ xs, f x = .error e := by
  induction xs with
  | nil => cases h
  | cons x xs ih =>
    rw [List.mapM_cons] at h
    cases hx : f x with
    | error e' =>
      rw [hx] at h
      cases h
      exact ⟨x, List.mem_cons_self, hx⟩
    | ok y =>
      cases hxs : xs.mapM f with
      | ok ys =>
        rw [hx, hxs] at h
        cases h
      | error e' =>
        rw [hx, hxs] at h
        cases h
        obtain ⟨z, hz, hfz⟩ := ih hxs
        exact ⟨z, List.mem_cons_of_mem _ hz, hfz⟩

/-- A traversal whose answers are known succeeds when each of them does. -/
theorem Except.mapM_eq_ok_map {ε α β : Type} {f : α → Except ε β} {P : α → Prop} {g : α → β} {xs : List α} {ys : List β}
    (h : ∀ x ∈ xs, ∀ y, f x = .ok y ↔ P x ∧ y = g x) : xs.mapM f = .ok ys ↔ (∀ x ∈ xs, P x) ∧ ys = xs.map g := by
  induction xs generalizing ys with
  | nil =>
    rw [List.mapM_nil, pure_eq_ok, eq_comm]
    simp
  | cons x xs ih =>
    rw [List.mapM_cons, bind_eq_ok, List.forall_mem_cons, List.map_cons]
    constructor
    · rintro ⟨y, hy, hrest⟩
      obtain ⟨zs, hzs, hys⟩ := bind_eq_ok.1 hrest
      obtain ⟨hP, rfl⟩ := (h x List.mem_cons_self y).1 hy
      obtain ⟨hPs, rfl⟩ := (ih fun z hz => h z (List.mem_cons_of_mem _ hz)).1 hzs
      exact ⟨⟨hP, hPs⟩, (pure_eq_ok.1 hys).symm⟩
    · rintro ⟨⟨hP, hPs⟩, rfl⟩
      refine ⟨g x, (h x List.mem_cons_self _).2 ⟨hP, rfl⟩, bind_eq_ok.2 ⟨xs.map g, ?_, rfl⟩⟩
      exact (ih fun z hz => h z (List.mem_cons_of_mem _ hz)).2 ⟨hPs, rfl⟩

theorem Except.map_eq_ok {ε α β : Type} {f : α → β} {x : Except ε α} {r : β} :
    x.map f = .ok r ↔ ∃ a, x = .ok a ∧ f a = r := by
  cases x with
  | error e =>
    constructor
    · intro h; cases h
    · rintro ⟨_, h, _⟩; cases h
  | ok a => simp [Except.map]

theorem Except.toOption_eq_some {ε α : Type} {x : Except ε α} {a : α} : x.toOption = some a ↔ x = .ok a := by
  cases x <;> simp [Except.toOption]

theorem Except.exists_of_isOk {ε α : Type} {x : Except ε α} (h : x.isOk = true) : ∃ a, x = .ok a := by
  cases x with
  | ok a => exact ⟨a, rfl⟩
  | error f => cases h

theorem Except.foldlM_cons_eq_ok {ε α β : Type} {f : β → α → Except ε β} {b r : β} {a : α} {as : List α} :
    (a :: as).foldlM f b = .ok r ↔ ∃ b', f b a = .ok b' ∧ as.foldlM f b' = .ok r := by
  rw [List.foldlM_cons, bind_eq_ok]

section Forall₂

variable {α β : Type} {P : α → β → Prop} {xs : List α} {ys : List β}

theorem forall₂_exists_left (h : List.Forall₂ P xs ys) {y : β} (hy : y ∈ ys) : ∃ x ∈ xs, P x y := by
  induction h with
  | nil => cases hy
  | cons hP _ ih =>
    rcases List.mem_cons.1 hy with rfl | hy
    · exact ⟨_, List.mem_cons_self, hP⟩
    · obtain ⟨x, hx, hP⟩ := ih hy
      exact ⟨x, List.mem_cons_of_mem _ hx, hP⟩

theorem forall₂_exists_right (h : List.Forall₂ P xs ys) {x : α} (hx : x ∈ xs) : ∃ y ∈ ys, P x y :=
  forall₂_exists_left h.flip hx

theorem pairwise_of_forall₂ {R : α → α → Prop} {S : β → β → Prop} (h : List.Forall₂ P xs ys) (hR : xs.Pairwise R)
    (himp : ∀ x x' y y', R x x' → P x y → P x' y' → S y y') : ys.Pairwise S := by
  induction h with
  | nil => exact .nil
  | cons hP hrest ih =>
    obtain ⟨hx, hR⟩ := List.pairwise_cons.1 hR
    refine .cons (fun y' hy' => ?_) (ih hR)
    obtain ⟨x', hx', hP'⟩ := forall₂_exists_left hrest hy'
    exact himp _ x' _ y' (hx x' hx') hP hP'

theorem exists_forall₂ (h : ∀ x ∈ xs, ∃ y, P x y) :
    ∃ ys, List.Forall₂ P xs ys := by
  induction xs with
  | nil => exact ⟨[], .nil⟩
  | cons x xs ih =>
    obtain ⟨y, hy⟩ := h x List.mem_cons_self
    obtain ⟨ys, hys⟩ := ih fun x hx => h x (List.mem_cons_of_mem _ hx)
    exact ⟨y :: ys, .cons hy hys⟩

end Forall₂

theorem eq_or_of_pairwise {α : Type} {R : α → α → Prop} {xs : List α} (h : xs.Pairwise R) {x y : α} (hx : x ∈ xs)
    (hy : y ∈ xs) : x = y ∨ R x y ∨ R y x := by
  have : Std.Symm fun x y => x = y ∨ R x y ∨ R y x := by
    refine ⟨?_⟩
    rintro x y (rfl | h | h)
    · exact .inl rfl
    · exact .inr (.inr h)
    · exact .inr (.inl h)
  have hall : xs.Pairwise fun x y => x = y ∨ R x y ∨ R y x := h.imp fun hR => .inr (.inl hR)
  exact hall.forall_of_forall (fun _ _ => .inl rfl) hx hy

theorem Except.flatMapM_eq_ok {ε α β : Type} {f : α → Except ε (List β)} {xs : List α} {ys : List β} :
    xs.flatMapM f = .ok ys ↔ ∃ zs, List.Forall₂ (fun x z => f x = .ok z) xs zs ∧ ys = zs.flatten := by
  suffices hloop : ∀ {xs : List α} {acc : List (List β)}, List.flatMapM.loop f xs acc = .ok ys ↔
      ∃ zs, List.Forall₂ (fun x z => f x = .ok z) xs zs ∧ ys = acc.reverse.flatten ++ zs.flatten by
    rw [List.flatMapM, hloop]
    simp
  intro xs
  induction xs with
  | nil =>
    intro acc
    rw [List.flatMapM.loop, pure_eq_ok]
    simp [eq_comm]
  | cons x xs ih =>
    intro acc
    rw [List.flatMapM.loop, bind_eq_ok]
    simp only [ih, List.forall₂_cons_left_iff]
    constructor
    · rintro ⟨z, hz, zs, hzs, rfl⟩
      exact ⟨z :: zs, ⟨z, zs, hz, hzs, rfl⟩, by simp⟩
    · rintro ⟨_, ⟨z, zs, hz, hzs, rfl⟩, rfl⟩
      exact ⟨z, hz, zs, hzs, by simp⟩

theorem Except.filterMapM_eq_ok {ε α β : Type} {f : α → Except ε (Option β)} {xs : List α} {ys : List β} :
    xs.filterMapM f = .ok ys ↔ ∃ zs, List.Forall₂ (fun x z => f x = .ok z) xs zs ∧ ys = zs.filterMap id := by
  suffices hloop : ∀ {xs : List α} {acc : List β}, List.filterMapM.loop f xs acc = .ok ys ↔
      ∃ zs, List.Forall₂ (fun x z => f x = .ok z) xs zs ∧ ys = acc.reverse ++ zs.filterMap id by
    rw [List.filterMapM, hloop]
    simp
  intro xs
  induction xs with
  | nil =>
    intro acc
    rw [List.filterMapM.loop, pure_eq_ok]
    simp [eq_comm]
  | cons x xs ih =>
    intro acc
    rw [List.filterMapM.loop, bind_eq_ok]
    simp only [List.forall₂_cons_left_iff]
    constructor
    · rintro ⟨z, hz, h⟩
      cases z with
      | none =>
        obtain ⟨zs, hzs, rfl⟩ := ih.1 h
        exact ⟨none :: zs, ⟨none, zs, hz, hzs, rfl⟩, rfl⟩
      | some y =>
        obtain ⟨zs, hzs, rfl⟩ := ih.1 h
        exact ⟨some y :: zs, ⟨some y, zs, hz, hzs, rfl⟩, by simp⟩
    · rintro ⟨_, ⟨z, zs, hz, hzs, rfl⟩, rfl⟩
      cases z with
      | none => exact ⟨none, hz, ih.2 ⟨zs, hzs, rfl⟩⟩
      | some y => exact ⟨some y, hz, ih.2 ⟨zs, hzs, by simp⟩⟩

theorem Except.forM_eq_ok {ε α : Type} {f : α → Except ε Unit} {xs : List α} :
    xs.forM f = .ok () ↔ ∀ x ∈ xs, f x = .ok () := by
  induction xs with
  | nil => exact ⟨fun _ _ h => absurd h List.not_mem_nil, fun _ => rfl⟩
  | cons x xs ih =>
    change (f x >>= fun _ => xs.forM f) = .ok () ↔ _
    rw [bind_eq_ok, List.forall_mem_cons]
    constructor
    · rintro ⟨⟨⟩, hx, hxs⟩
      exact ⟨hx, ih.1 hxs⟩
    · rintro ⟨hx, hxs⟩
      exact ⟨(), hx, ih.2 hxs⟩

namespace Attempt

variable {α β : Type}

@[simp] theorem outcome_pure (a : α) : (pure a : Attempt α).outcome = .ok a := rfl

@[simp] theorem outcome_fail (f : Fault) : (fail f : Attempt α).outcome = .error (.fault f) := rfl

@[simp] theorem outcome_warn (message : String) (subject : Option String) :
    (warn message subject).outcome = .ok () := rfl

@[simp] theorem outcome_record (ws : List Warning) : (record ws).outcome = .ok () := rfl

theorem outcome_bind (x : Attempt α) (f : α → Attempt β) :
    (x >>= f).outcome = x.outcome >>= fun a => (f a).outcome := by
  obtain ⟨ws, r⟩ := x
  cases r <;> rfl

theorem bind_eq_ok {x : Attempt α} {f : α → Attempt β} {r : β} :
    (x >>= f).outcome = .ok r ↔ ∃ a, x.outcome = .ok a ∧ (f a).outcome = .ok r := by
  rw [outcome_bind, Except.bind_eq_ok]

theorem ofExcept_eq_ok {x : Except Fault α} {a : α} : (ofExcept x).outcome = .ok a ↔ x = .ok a := by
  cases x with
  | error e =>
    constructor
    · intro h; cases h
    · intro h; cases h
  | ok b =>
    constructor
    · intro h; cases h; rfl
    · intro h; cases h; rfl

/-- What is known of the first part of a chain that succeeds there. -/
theorem outcome_bind_of_ok {x : Attempt α} {f : α → Attempt β} {a : α} (h : x.outcome = .ok a) :
    (x >>= f).outcome = (f a).outcome := by
  rw [outcome_bind, h]; rfl

theorem outcome_ofExcept_ok {x : Except Fault α} {a : α} (h : x = .ok a) : (ofExcept x).outcome = .ok a :=
  ofExcept_eq_ok.2 h

theorem outcome_ofExcept_error {x : Except Fault α} {f : Fault} (h : x = .error f) :
    (ofExcept x).outcome = .error (.fault f) := by
  rw [h]; rfl

instance : LawfulMonad Attempt := LawfulMonad.mk' Attempt
  (fun x => by
    obtain ⟨ws, r⟩ := x
    cases r <;> simp [Functor.map, Attempt.bind, Attempt.pure])
  (fun a f => by simp [bind, Attempt.bind, pure, Attempt.pure])
  (fun x f g => by
    obtain ⟨ws, r⟩ := x
    cases r with
    | error e => simp [bind, Attempt.bind]
    | ok a =>
      simp only [bind, Attempt.bind]
      cases h : (f a).outcome <;> simp)

/-! ## Folds -/

theorem foldlM_cons_eq_ok {f : β → α → Attempt β} {b r : β} {a : α} {as : List α} :
    ((a :: as).foldlM f b).outcome = .ok r ↔ ∃ b', (f b a).outcome = .ok b' ∧ (as.foldlM f b').outcome = .ok r := by
  rw [List.foldlM_cons, bind_eq_ok]

theorem mapM_eq_ok {f : α → Attempt β} {xs : List α} : ∀ {ys : List β},
    (xs.mapM f).outcome = .ok ys ↔ List.Forall₂ (fun x y => (f x).outcome = .ok y) xs ys := by
  induction xs with
  | nil =>
    intro ys
    rw [List.mapM_nil, outcome_pure, Except.ok.injEq, List.forall₂_nil_left_iff, eq_comm]
  | cons x xs ih =>
    intro ys
    rw [List.mapM_cons, bind_eq_ok, List.forall₂_cons_left_iff]
    constructor
    · rintro ⟨y, hy, h⟩
      obtain ⟨zs, hzs, h⟩ := bind_eq_ok.1 h
      cases h
      exact ⟨y, zs, hy, ih.1 hzs, rfl⟩
    · rintro ⟨y, zs, hy, hzs, rfl⟩
      exact ⟨y, hy, bind_eq_ok.2 ⟨zs, ih.2 hzs, rfl⟩⟩

theorem forM_eq_ok {f : α → Attempt Unit} {xs : List α} :
    (xs.forM f).outcome = .ok () ↔ ∀ x ∈ xs, (f x).outcome = .ok () := by
  induction xs with
  | nil => exact ⟨fun _ _ h => absurd h List.not_mem_nil, fun _ => rfl⟩
  | cons x xs ih =>
    change (f x >>= fun _ => xs.forM f).outcome = .ok () ↔ _
    rw [bind_eq_ok, List.forall_mem_cons]
    constructor
    · rintro ⟨⟨⟩, hx, hxs⟩
      exact ⟨hx, ih.1 hxs⟩
    · rintro ⟨hx, hxs⟩
      exact ⟨(), hx, ih.2 hxs⟩

/-- What every successful step of a fold keeps, a successful fold keeps. -/
theorem foldlM_ok_induction {f : β → α → Attempt β} (P : β → Prop) {as : List α}
    (hstep : ∀ a ∈ as, ∀ b b', P b → (f b a).outcome = .ok b' → P b') :
    ∀ {b r : β}, P b → (as.foldlM f b).outcome = .ok r → P r := by
  induction as with
  | nil =>
    intro b r hb h
    cases h
    exact hb
  | cons a as ih =>
    intro b r hb h
    obtain ⟨b', h1, h2⟩ := foldlM_cons_eq_ok.1 h
    exact ih (fun x hx => hstep x (List.mem_cons_of_mem _ hx)) (hstep a List.mem_cons_self b b' hb h1) h2

end Attempt

end PulseSequencer
