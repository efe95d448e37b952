import PulseSequencer.Proofs.Attempt

/-!
# Faults that are not the compiler's own

A fault of the kind `internal` says that the compiler has broken one of its own rules, and so does a search for ticks
that has no end. What an attempt can give is told together with the fact that it does not end in such a failure.

* `Failure.Foreign` : a failure of another kind;
* `Except.Meets`, `Attempt.Meets` : the result is as a predicate says, or a fault of another kind;
* `Except.Clean`, `Attempt.Clean` : the same without a predicate;
* `Attempt.Meets.bind`, `Attempt.meets_foldlM` : chains and folds.
-/

namespace PulseSequencer

variable {α β : Type} {P : α → Prop} {Q : β → Prop}

/-! ## Results with faults only -/

/-- The result is as `P` says, or a fault that is not the compiler's own. -/
structure Except.Meets (P : α → Prop) (x : Except Fault α) : Prop where
  ok : ∀ a, x = .ok a → P a
  fault : ∀ f, x = .error f → f.kind ≠ .internal

/-- The result is not a fault of the compiler itself. -/
abbrev Except.Clean (x : Except Fault α) : Prop := Except.Meets (fun _ => True) x

namespace Except

theorem meets_ok {a : α} (h : P a) : Meets P (.ok a) := by
  refine ⟨fun b hb => ?_, fun f hf => ?_⟩
  · cases hb
    exact h
  · cases hf

theorem meets_error {f : Fault} (h : f.kind ≠ .internal) : Meets P (.error f : Except Fault α) := by
  refine ⟨fun b hb => ?_, fun g hg => ?_⟩
  · cases hb
  · cases hg
    exact h

theorem Meets.mono {P' : α → Prop} {x : Except Fault α} (h : Meets P x) (himp : ∀ a, x = .ok a → P a → P' a) :
    Meets P' x :=
  ⟨fun a ha => himp a ha (h.ok a ha), h.fault⟩

theorem Meets.bind {x : Except Fault α} {f : α → Except Fault β} (hx : Meets P x)
    (hf : ∀ a, x = .ok a → P a → Meets Q (f a)) : Meets Q (x >>= f) := by
  cases x with
  | error e => exact meets_error (hx.fault e rfl)
  | ok a => exact hf a rfl (hx.ok a rfl)

theorem Clean.bind {x : Except Fault α} {f : α → Except Fault β} (hx : Clean x) (hf : ∀ a, x = .ok a → Meets Q (f a)) :
    Meets Q (x >>= f) :=
  Meets.bind hx fun a ha _ => hf a ha

theorem clean_pure (a : α) : Clean (pure a) := meets_ok trivial

theorem clean_mapM {f : α → Except Fault β} {xs : List α} (h : ∀ x ∈ xs, Clean (f x)) : Clean (xs.mapM f) := by
  refine ⟨fun _ _ => trivial, fun e he => ?_⟩
  obtain ⟨x, hx, hfx⟩ := exists_of_mapM_eq_error he
  exact (h x hx).fault e hfx

theorem meets_foldlM {f : α → β → Except Fault α} {xs : List β} (h : ∀ x ∈ xs, ∀ a, P a → Meets P (f a x)) :
    ∀ {a : α}, P a → Meets P (xs.foldlM f a) := by
  induction xs with
  | nil => exact fun ha => meets_ok ha
  | cons x xs ih =>
    intro a ha
    rw [List.foldlM_cons]
    exact (h x List.mem_cons_self a ha).bind fun b _ hb => ih (fun y hy => h y (List.mem_cons_of_mem _ hy)) hb

theorem clean_foldlM {f : α → β → Except Fault α} {xs : List β} (h : ∀ x ∈ xs, ∀ a, Clean (f a x)) (a : α) :
    Clean (xs.foldlM f a) := meets_foldlM (P := fun _ => True) (fun x hx a _ => h x hx a) trivial

theorem clean_forM {f : α → Except Fault Unit} {xs : List α} (h : ∀ x ∈ xs, Clean (f x)) : Clean (xs.forM f) := by
  induction xs with
  | nil => exact clean_pure ()
  | cons x xs ih =>
    exact Clean.bind (h x List.mem_cons_self) fun _ _ => ih fun y hy => h y (List.mem_cons_of_mem _ hy)

theorem clean_filterMapM {f : α → Except Fault (Option β)} {xs : List α} (h : ∀ x ∈ xs, Clean (f x)) :
    Clean (xs.filterMapM f) := by
  suffices hloop : ∀ {xs : List α} {acc : List β}, (∀ x ∈ xs, Clean (f x)) → Clean (List.filterMapM.loop f xs acc) from
    hloop h
  intro xs
  induction xs with
  | nil => exact fun _ => clean_pure _
  | cons x xs ih =>
    intro acc h
    refine Clean.bind (h x List.mem_cons_self) fun y _ => ?_
    cases y <;> exact ih fun z hz => h z (List.mem_cons_of_mem _ hz)

theorem clean_flatMapM {f : α → Except Fault (List β)} {xs : List α} (h : ∀ x ∈ xs, Clean (f x)) :
    Clean (xs.flatMapM f) := by
  suffices hloop : ∀ {xs : List α} {acc : List (List β)}, (∀ x ∈ xs, Clean (f x)) →
      Clean (List.flatMapM.loop f xs acc) from hloop h
  intro xs
  induction xs with
  | nil => exact fun _ => clean_pure _
  | cons x xs ih =>
    intro acc h
    exact Clean.bind (h x List.mem_cons_self) fun _ _ => ih fun z hz => h z (List.mem_cons_of_mem _ hz)

end Except

/-! ## Attempts -/

/-- The failure is neither a fault of the compiler itself nor a search of it that has no end. -/
def Failure.Foreign : Failure → Prop
  | .fault f => f.kind ≠ .internal
  | .endlessLine => True
  | .endlessSearch => False

/-- The outcome is as `P` says, or a failure that is not due to the compiler itself. -/
structure Attempt.Meets (P : α → Prop) (x : Attempt α) : Prop where
  ok : ∀ a, x.outcome = .ok a → P a
  failure : ∀ e, x.outcome = .error e → e.Foreign

/-- The attempt does not end in a failure that is due to the compiler itself. -/
abbrev Attempt.Clean (x : Attempt α) : Prop := x.Meets fun _ => True

namespace Attempt

theorem meets_of_ok {x : Attempt α} {a : α} (hx : x.outcome = .ok a) (h : P a) : x.Meets P := by
  refine ⟨fun b hb => ?_, fun e he => ?_⟩
  · cases hx.symm.trans hb
    exact h
  · cases hx.symm.trans he

theorem meets_of_error {x : Attempt α} {e : Failure} (hx : x.outcome = .error e) (h : e.Foreign) : x.Meets P := by
  refine ⟨fun b hb => ?_, fun e' he => ?_⟩
  · cases hx.symm.trans hb
  · cases hx.symm.trans he
    exact h

theorem meets_pure {a : α} (h : P a) : (pure a : Attempt α).Meets P := meets_of_ok rfl h

theorem clean_record (warnings : List Warning) : (record warnings).Clean := meets_of_ok rfl trivial

theorem meets_fail {f : Fault} (h : f.kind ≠ .internal) : (fail f : Attempt α).Meets P := meets_of_error rfl h

theorem Meets.mono {P' : α → Prop} {x : Attempt α} (h : x.Meets P) (himp : ∀ a, x.outcome = .ok a → P a → P' a) :
    x.Meets P' :=
  ⟨fun a ha => himp a ha (h.ok a ha), h.failure⟩

theorem Meets.clean {x : Attempt α} (h : x.Meets P) : x.Clean := h.mono fun _ _ _ => trivial

theorem meets_ofExcept {x : Except Fault α} (h : Except.Meets P x) : (ofExcept x).Meets P := by
  cases x with
  | error f => exact meets_fail (h.fault f rfl)
  | ok a => exact meets_pure (h.ok a rfl)

theorem Meets.bind {x : Attempt α} {f : α → Attempt β} (hx : x.Meets P)
    (hf : ∀ a, x.outcome = .ok a → P a → (f a).Meets Q) : (x >>= f).Meets Q := by
  cases hout : x.outcome with
  | error e =>
    have herror : (x >>= f).outcome = .error e := by
      rw [outcome_bind, hout]
      rfl
    exact meets_of_error herror (hx.failure e hout)
  | ok a =>
    have hrest := hf a hout (hx.ok a hout)
    exact ⟨fun b hb => hrest.ok b ((outcome_bind_of_ok hout).symm.trans hb),
      fun e he => hrest.failure e ((outcome_bind_of_ok hout).symm.trans he)⟩

theorem Clean.bind {x : Attempt α} {f : α → Attempt β} (hx : x.Clean) (hf : ∀ a, x.outcome = .ok a → (f a).Meets Q) :
    (x >>= f).Meets Q :=
  Meets.bind hx fun a ha _ => hf a ha

theorem meets_foldlM {f : α → β → Attempt α} {xs : List β} (h : ∀ x ∈ xs, ∀ a, P a → (f a x).Meets P) :
    ∀ {a : α}, P a → (xs.foldlM f a).Meets P := by
  induction xs with
  | nil => exact fun ha => meets_pure ha
  | cons x xs ih =>
    intro a ha
    rw [List.foldlM_cons]
    exact (h x List.mem_cons_self a ha).bind fun b _ hb => ih (fun y hy => h y (List.mem_cons_of_mem _ hy)) hb

theorem clean_forM {f : α → Attempt Unit} {xs : List α} (h : ∀ x ∈ xs, (f x).Clean) : (xs.forM f).Clean := by
  induction xs with
  | nil => exact meets_pure trivial
  | cons x xs ih =>
    exact Clean.bind (h x List.mem_cons_self) fun _ _ => ih fun y hy => h y (List.mem_cons_of_mem _ hy)

end Attempt

end PulseSequencer
