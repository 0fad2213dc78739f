import DataCatalog.Error
import Mathlib

/-!
# Results and errors

A statement about a reader speaks of its result and of its error at once.  The rules of this file
carry such a statement through the steps of a reader: one step after the other, and one step for
each item of a list.  A list is read successfully exactly when every item is.  Two readers are
compared in the same way, step by step.
-/

namespace DataCatalog

variable {α β : Type}

@[simp] theorem map_ok (f : α → β) (a : α) :
    (Except.ok a : Except Error α).map f = .ok (f a) := rfl

@[simp] theorem map_error (f : α → β) (e : Error) :
    (Except.error e : Except Error α).map f = .error e := rfl

@[simp] theorem ok_bind (a : α) (f : α → Except Error β) :
    (Except.ok a >>= f) = f a := rfl

@[simp] theorem error_bind (e : Error) (f : α → Except Error β) :
    (Except.error e >>= f) = .error e := rfl

theorem map_map {γ : Type} (x : Except Error α) (f : α → β) (g : β → γ) :
    (x.map f).map g = x.map fun a => g (f a) := by
  cases x <;> rfl

theorem bind_ok_eq_map (x : Except Error α) (f : α → β) :
    (x >>= fun a => .ok (f a)) = x.map f := by
  cases x <;> rfl

theorem map_eq_ok_iff {x : Except Error α} {f : α → β} {b : β} :
    x.map f = .ok b ↔ ∃ a, x = .ok a ∧ f a = b := by
  cases x <;> simp

theorem exists_map_eq_ok_iff {x : Except Error α} {f : α → β} {p : β → Prop} :
    (∃ b, x.map f = .ok b ∧ p b) ↔ ∃ a, x = .ok a ∧ p (f a) := by
  cases x <;> simp

theorem bind_eq_ok_iff {x : Except Error α} {f : α → Except Error β} {b : β} :
    (x >>= f) = .ok b ↔ ∃ a, x = .ok a ∧ f a = .ok b := by
  cases x <;> simp

theorem map_eq_error_iff {x : Except Error α} {f : α → β} {e : Error} :
    x.map f = .error e ↔ x = .error e := by
  cases x <;> simp

theorem bind_eq_error_iff {x : Except Error α} {f : α → Except Error β} {e : Error} :
    (x >>= f) = .error e ↔ x = .error e ∨ ∃ a, x = .ok a ∧ f a = .error e := by
  cases x <;> simp

theorem mapM_eq_ok_iff {f : α → Except Error β} {xs : List α} {ys : List β} :
    xs.mapM f = .ok ys ↔ List.Forall₂ (fun x y => f x = .ok y) xs ys := by
  induction xs generalizing ys with
  | nil => cases ys <;> simp [pure, Except.pure]
  | cons x xs ih =>
      rw [List.mapM_cons, bind_eq_ok_iff]
      cases ys with
      | nil => simp [bind_eq_ok_iff, pure, Except.pure]
      | cons y ys => simp [bind_eq_ok_iff, pure, Except.pure, ← ih]

/-- The error of a list is that of its first item that has one. -/
theorem mapM_eq_error_iff {f : α → Except Error β} {xs : List α} {e : Error} :
    xs.mapM f = .error e ↔
      ∃ before x after, xs = before ++ x :: after ∧ (∀ y ∈ before, ∃ b, f y = .ok b) ∧
        f x = .error e := by
  induction xs with
  | nil => simp [pure, Except.pure]
  | cons head tail ih =>
      rw [List.mapM_cons, bind_eq_error_iff]
      constructor
      · rintro (hhead | ⟨b, hhead, hrest⟩)
        · exact ⟨[], head, tail, rfl, by simp, hhead⟩
        · rw [bind_eq_error_iff] at hrest
          rcases hrest with htail | ⟨bs, -, hpure⟩
          · rcases ih.mp htail with ⟨before, x, after, rfl, hbefore, hx⟩
            refine ⟨head :: before, x, after, rfl, ?_, hx⟩
            simpa [hhead] using hbefore
          · cases hpure
      · rintro ⟨before, x, after, hsplit, hbefore, hx⟩
        cases before with
        | nil =>
            simp only [List.nil_append, List.cons.injEq] at hsplit
            rw [hsplit.1]
            exact .inl hx
        | cons first more =>
            simp only [List.cons_append, List.cons.injEq] at hsplit
            rw [List.forall_mem_cons] at hbefore
            rw [hsplit.1]
            rcases hbefore.1 with ⟨b, hb⟩
            have htail : tail.mapM f = .error e :=
              ih.mpr ⟨more, x, after, hsplit.2, hbefore.2, hx⟩
            refine .inr ⟨b, hb, ?_⟩
            simp [htail]

theorem exists_of_forall₂ {R : α → β → Prop} {xs : List α} {ys : List β}
    (h : List.Forall₂ R xs ys) {x : α} (hx : x ∈ xs) : ∃ y ∈ ys, R x y := by
  induction h with
  | nil => cases hx
  | cons hhead _ ih =>
      rcases List.mem_cons.mp hx with rfl | hrest
      · exact ⟨_, List.mem_cons_self, hhead⟩
      · obtain ⟨y, hy, hxy⟩ := ih hrest
        exact ⟨y, List.mem_cons_of_mem _ hy, hxy⟩

theorem forall₂_imp_of_mem {R S : α → β → Prop} {xs : List α} {ys : List β}
    (h : List.Forall₂ R xs ys) (hRS : ∀ x ∈ xs, ∀ y ∈ ys, R x y → S x y) :
    List.Forall₂ S xs ys := by
  rw [List.forall₂_iff_zip] at h ⊢
  refine ⟨h.1, fun {x y} hmem => ?_⟩
  obtain ⟨hx, hy⟩ := List.of_mem_zip hmem
  exact hRS x hx y hy (h.2 hmem)

theorem forall₂_comp {γ : Type} {R : α → β → Prop} {S : β → γ → Prop} {xs : List α} {ys : List β}
    {zs : List γ} (h : List.Forall₂ R xs ys) (h' : List.Forall₂ S ys zs) :
    List.Forall₂ (Relation.Comp R S) xs zs := by
  induction h generalizing zs with
  | nil =>
      cases h'
      exact .nil
  | cons hhead _ ih =>
      cases h' with
      | cons hhead' htail' => exact .cons ⟨_, hhead, hhead'⟩ (ih htail')

theorem exists_ok_of_mapM_eq_ok {f : α → Except Error β} {xs : List α} {ys : List β}
    (h : xs.mapM f = .ok ys) {x : α} (hx : x ∈ xs) : ∃ y ∈ ys, f x = .ok y :=
  exists_of_forall₂ (mapM_eq_ok_iff.mp h) hx

theorem exists_mem_of_mapM_eq_ok {f : α → Except Error β} {xs : List α} {ys : List β}
    (h : xs.mapM f = .ok ys) {y : β} (hy : y ∈ ys) : ∃ x ∈ xs, f x = .ok y :=
  exists_of_forall₂ (mapM_eq_ok_iff.mp h).flip hy

theorem exists_mem_of_mapM_eq_error {f : α → Except Error β} {xs : List α} {e : Error}
    (h : xs.mapM f = .error e) : ∃ x ∈ xs, f x = .error e := by
  obtain ⟨before, x, after, rfl, -, hx⟩ := mapM_eq_error_iff.mp h
  exact ⟨x, by simp, hx⟩

theorem mapM_fails_iff {f : α → Except Error β} {xs : List α} :
    (∃ e, xs.mapM f = .error e) ↔ ∃ x ∈ xs, ∃ e, f x = .error e := by
  constructor
  · rintro ⟨e, he⟩
    obtain ⟨x, hmem, hx⟩ := exists_mem_of_mapM_eq_error he
    exact ⟨x, hmem, e, hx⟩
  · rintro ⟨x, hmem, e, hx⟩
    cases hmap : xs.mapM f with
    | error fault => exact ⟨fault, rfl⟩
    | ok ys =>
        obtain ⟨y, -, hy⟩ := exists_ok_of_mapM_eq_ok hmap hmem
        simp [hy] at hx

/-- The results stand beside the items, and each passes the test with its item. -/
theorem zip_all_iff_of_mapM_eq_ok {f : α → Except Error β} {test : β × α → Bool} {xs : List α}
    {ys : List β} (h : xs.mapM f = .ok ys) :
    (ys.length == xs.length && (ys.zip xs).all test) = true ↔
      ∀ x ∈ xs, ∃ y, f x = .ok y ∧ test (y, x) = true := by
  have hpairs := mapM_eq_ok_iff.mp h
  clear h
  rw [hpairs.length_eq, beq_self_eq_true, Bool.true_and]
  induction hpairs with
  | nil => simp
  | cons hhead _ ih => simp [hhead, ih]

/-- Where each item has a preimage, the list of preimages is found item by item. -/
theorem exists_mapM_eq_ok {f : α → Except Error β} {g : β → Except Error α} {xs : List α}
    (h : ∀ x ∈ xs, ∃ y, f x = .ok y ∧ g y = .ok x) :
    ∃ ys, xs.mapM f = .ok ys ∧ ys.mapM g = .ok xs := by
  induction xs with
  | nil => exact ⟨[], rfl, rfl⟩
  | cons x xs ih =>
      obtain ⟨y, hy, hx⟩ := h x List.mem_cons_self
      obtain ⟨ys, hys, hxs⟩ := ih fun z hz => h z (List.mem_cons_of_mem x hz)
      refine ⟨y :: ys, ?_, ?_⟩
      · rw [List.mapM_cons, hy, hys]
        rfl
      · rw [List.mapM_cons, hx, hxs]
        rfl

/-- A list is read back item by item. -/
theorem mapM_eq_ok_of_inverse
    {f : α → Except Error β} {g : β → Except Error α} {xs : List α} {ys : List β}
    (hinverse : ∀ x y, f x = .ok y → g y = .ok x)
    (hys : xs.mapM f = .ok ys) :
    ys.mapM g = .ok xs := by
  rw [mapM_eq_ok_iff] at hys ⊢
  exact (hys.imp hinverse).flip

theorem mapM_eq_mapM {γ : Type} {f : α → Except Error γ} {g : β → Except Error γ}
    {xs : List α} {ys : List β} (h : List.Forall₂ (fun x y => f x = g y) xs ys) :
    xs.mapM f = ys.mapM g := by
  induction h with
  | nil => rfl
  | cons hhead _ ih => rw [List.mapM_cons, List.mapM_cons, hhead, ih]

/-- `good` holds of the result, or `bad` of the error. -/
def Yields (good : α → Prop) (bad : Error → Prop) : Except Error α → Prop
  | .ok a => good a
  | .error e => bad e

namespace Yields

variable {good : α → Prop} {bad : Error → Prop}

@[simp] theorem ok_iff {a : α} : Yields good bad (.ok a) ↔ good a := Iff.rfl

@[simp] theorem error_iff {e : Error} :
    Yields good bad (.error e : Except Error α) ↔ bad e := Iff.rfl

theorem of_forall {x : Except Error α}
    (hok : ∀ a, x = .ok a → good a) (herror : ∀ e, x = .error e → bad e) :
    Yields good bad x := by
  cases x with
  | ok a => exact hok a rfl
  | error e => exact herror e rfl

theorem result {x : Except Error α} (h : Yields good bad x) {a : α} (hx : x = .ok a) :
    good a := by
  subst hx
  exact h

theorem fault {x : Except Error α} (h : Yields good bad x) {e : Error} (hx : x = .error e) :
    bad e := by
  subst hx
  exact h

theorem imp {other : α → Prop} {x : Except Error α} (h : Yields good bad x)
    (hgood : ∀ a, good a → other a) : Yields other bad x := by
  cases x with
  | ok a => exact hgood a h
  | error e => exact h

theorem map {other : β → Prop} {x : Except Error α} {f : α → β} (h : Yields good bad x)
    (hf : ∀ a, good a → other (f a)) : Yields other bad (x.map f) := by
  cases x with
  | ok a => exact hf a h
  | error e => exact h

theorem bind {other : β → Prop} {x : Except Error α} {f : α → Except Error β}
    (h : Yields good bad x) (hf : ∀ a, good a → Yields other bad (f a)) :
    Yields other bad (x >>= f) := by
  cases x with
  | ok a => exact hf a h
  | error e => exact h

theorem mapM {other : β → Prop} {f : α → Except Error β} {xs : List α}
    (h : ∀ x ∈ xs, Yields other bad (f x)) :
    Yields (fun ys => ∀ y ∈ ys, other y) bad (xs.mapM f) := by
  induction xs with
  | nil => simp [pure, Except.pure]
  | cons x xs ih =>
      rw [List.mapM_cons]
      refine (h x List.mem_cons_self).bind fun y hy => ?_
      refine (ih fun z hz => h z (List.mem_cons_of_mem x hz)).bind fun ys hys => ?_
      exact List.forall_mem_cons.mpr ⟨hy, hys⟩

end Yields

/-- There is a result. -/
def Succeeds (x : Except Error α) : Prop :=
  ∃ a, x = .ok a

namespace Succeeds

theorem of_isOk {x : Except Error α} (h : x.isOk = true) : Succeeds x := by
  cases x with
  | ok a => exact ⟨a, rfl⟩
  | error e => cases h

theorem map {x : Except Error α} (h : Succeeds x) (f : α → β) : Succeeds (x.map f) := by
  obtain ⟨a, rfl⟩ := h
  exact ⟨f a, rfl⟩

theorem map_iff {x : Except Error α} {f : α → β} : Succeeds (x.map f) ↔ Succeeds x := by
  cases x <;> simp [Succeeds]

theorem bind {x : Except Error α} {f : α → Except Error β} (h : Succeeds x)
    (hf : ∀ a, x = .ok a → Succeeds (f a)) : Succeeds (x >>= f) := by
  obtain ⟨a, rfl⟩ := h
  exact hf a rfl

theorem mapM {f : α → Except Error β} {xs : List α} (h : ∀ x ∈ xs, Succeeds (f x)) :
    Succeeds (xs.mapM f) := by
  induction xs with
  | nil => exact ⟨[], rfl⟩
  | cons x xs ih =>
      rw [List.mapM_cons]
      refine (h x List.mem_cons_self).bind fun y _ => ?_
      refine (ih fun z hz => h z (List.mem_cons_of_mem x hz)).bind fun ys _ => ?_
      exact ⟨y :: ys, rfl⟩

end Succeeds

/-- Where the first has a result, the second has the same. -/
def Extends (x y : Except Error α) : Prop :=
  ∀ a, x = .ok a → y = .ok a

namespace Extends

variable {x y : Except Error α}

theorem refl (x : Except Error α) : Extends x x :=
  fun _ => id

theorem map (h : Extends x y) (f : α → β) : Extends (x.map f) (y.map f) := by
  intro b hb
  obtain ⟨a, ha, rfl⟩ := map_eq_ok_iff.mp hb
  rw [h a ha, map_ok]

theorem bind {f g : α → Except Error β} (h : Extends x y)
    (hfg : ∀ a, Extends (f a) (g a)) : Extends (x >>= f) (y >>= g) := by
  intro b hb
  obtain ⟨a, ha, hfa⟩ := bind_eq_ok_iff.mp hb
  rw [h a ha, ok_bind]
  exact hfg a b hfa

end Extends

/-- Both have results, and these are related, or neither has one. -/
def Agrees (R : α → β → Prop) : Except Error α → Except Error β → Prop
  | .ok a, .ok b => R a b
  | .error _, .error _ => True
  | _, _ => False

namespace Agrees

variable {R : α → β → Prop} {x : Except Error α} {y : Except Error β}

@[simp] theorem ok_ok_iff {a : α} {b : β} : Agrees R (.ok a) (.ok b) ↔ R a b := Iff.rfl

@[simp] theorem error_error {e f : Error} : Agrees R (.error e) (.error f) := trivial

theorem of_eq {S : α → α → Prop} {x y : Except Error α} (h : x = y)
    (hself : ∀ a, x = .ok a → S a a) : Agrees S x y := by
  subst h
  cases x with
  | ok a => exact hself a rfl
  | error e => trivial

theorem related (h : Agrees R x y) {a : α} {b : β} (hx : x = .ok a) (hy : y = .ok b) :
    R a b := by
  subst hx hy
  exact h

theorem succeeds_iff (h : Agrees R x y) : Succeeds x ↔ Succeeds y := by
  cases x with
  | ok a =>
      cases y with
      | ok b => exact ⟨fun _ => ⟨b, rfl⟩, fun _ => ⟨a, rfl⟩⟩
      | error e => cases h
  | error e =>
      cases y with
      | ok b => cases h
      | error f => exact ⟨fun ⟨_, hx⟩ => (nomatch hx), fun ⟨_, hy⟩ => (nomatch hy)⟩

theorem with_eq (h : Agrees R x y) :
    Agrees (fun a b => R a b ∧ x = .ok a ∧ y = .ok b) x y := by
  cases x with
  | ok a =>
      cases y with
      | ok b => exact ⟨h, rfl, rfl⟩
      | error e => cases h
  | error e =>
      cases y with
      | ok b => cases h
      | error f => trivial

theorem of_succeeds (hiff : Succeeds x ↔ Succeeds y)
    (h : ∀ a b, x = .ok a → y = .ok b → R a b) : Agrees R x y := by
  cases x with
  | ok a =>
      obtain ⟨b, rfl⟩ := hiff.mp ⟨a, rfl⟩
      exact h a b rfl rfl
  | error e =>
      cases y with
      | ok b =>
          obtain ⟨a, ha⟩ := hiff.mpr ⟨b, rfl⟩
          cases ha
      | error f => trivial

theorem map {γ δ : Type} {S : γ → δ → Prop} {f : α → γ} {g : β → δ} (h : Agrees R x y)
    (hfg : ∀ a b, R a b → S (f a) (g b)) : Agrees S (x.map f) (y.map g) := by
  cases x with
  | ok a =>
      cases y with
      | ok b => exact hfg a b h
      | error e => cases h
  | error e =>
      cases y with
      | ok b => cases h
      | error f => trivial

theorem bind {γ δ : Type} {S : γ → δ → Prop} {f : α → Except Error γ} {g : β → Except Error δ}
    (h : Agrees R x y) (hfg : ∀ a b, R a b → Agrees S (f a) (g b)) :
    Agrees S (x >>= f) (y >>= g) := by
  cases x with
  | ok a =>
      cases y with
      | ok b => exact hfg a b h
      | error e => cases h
  | error e =>
      cases y with
      | ok b => cases h
      | error f => trivial

theorem mapM {γ δ : Type} {S : γ → δ → Prop} {f : α → Except Error γ} {g : β → Except Error δ}
    {xs : List α} {ys : List β} (h : List.Forall₂ (fun x y => Agrees S (f x) (g y)) xs ys) :
    Agrees (List.Forall₂ S) (xs.mapM f) (ys.mapM g) := by
  induction h with
  | nil => exact List.Forall₂.nil
  | cons hhead _ ih =>
      rw [List.mapM_cons, List.mapM_cons]
      refine hhead.bind fun a b hab => ih.bind fun as bs hrest => ?_
      exact List.Forall₂.cons hab hrest

end Agrees

/-- Both fail with the same error, or neither of them fails. -/
def FailsAlike (x : Except Error α) (y : Except Error β) : Prop :=
  ∀ e, x = .error e ↔ y = .error e

namespace FailsAlike

variable {x : Except Error α} {y : Except Error β}

theorem bind {γ δ : Type} {f : α → Except Error γ} {g : β → Except Error δ} (h : FailsAlike x y)
    (hfg : ∀ a b, FailsAlike (f a) (g b)) : FailsAlike (x >>= f) (y >>= g) := by
  cases x with
  | error e =>
      have hy : y = .error e := (h e).mp rfl
      simp [hy, FailsAlike]
  | ok a =>
      cases y with
      | error e => exact absurd ((h e).mpr rfl) (by simp)
      | ok b => exact hfg a b

theorem map {γ : Type} (h : FailsAlike x y) (f : α → γ) : FailsAlike (x.map f) y := by
  intro e
  rw [map_eq_error_iff]
  exact h e

theorem mapM {γ : Type} {f : γ → Except Error α} {g : γ → Except Error β} {xs : List γ}
    (h : ∀ z, FailsAlike (f z) (g z)) : FailsAlike (xs.mapM f) (xs.mapM g) := by
  induction xs with
  | nil => simp [FailsAlike, pure, Except.pure]
  | cons head tail ih =>
      rw [List.mapM_cons, List.mapM_cons]
      refine (h head).bind fun _ _ => ih.bind fun _ _ => ?_
      simp [FailsAlike, pure, Except.pure]

/-- What goes wrong in a list of lists goes wrong in the lists one after the other. -/
theorem mapM_flatMap {γ : Type} (f : β → Except Error γ) (g : α → List β) (xs : List α) :
    FailsAlike ((xs.flatMap g).mapM f) (xs.mapM fun x => (g x).mapM f) := by
  induction xs with
  | nil => simp [FailsAlike, pure, Except.pure]
  | cons head tail ih =>
      rw [List.flatMap_cons, List.mapM_append, List.mapM_cons]
      have hhead : FailsAlike ((g head).mapM f) ((g head).mapM f) := fun _ => Iff.rfl
      refine hhead.bind fun _ _ => ih.bind fun _ _ => ?_
      simp [FailsAlike, pure, Except.pure]

end FailsAlike

end DataCatalog
