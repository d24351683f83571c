import LayeredConfig.Config
import Mathlib.Data.List.Forall2

/-!
# Runs that may fail

What it means that a run of steps succeeds: each step did, on what the one before gave. `Attempt.each`
stops at the first step that fails, so a run without an error is a run of all steps
(`Attempt.each_induction`).
-/

namespace LayeredConfig

section

variable {α β ε : Type}

theorem map_eq_ok_iff {f : α → β} {x : Except ε α} {y : β} : x.map f = .ok y ↔ ∃ a, x = .ok a ∧ f a = y := by
  cases x <;> simp [Except.map]

theorem bind_eq_ok_iff {x : Except ε α} {f : α → Except ε β} {y : β} :
    (x >>= f) = .ok y ↔ ∃ a, x = .ok a ∧ f a = .ok y := by
  cases x <;> simp [Bind.bind, Except.bind]

theorem mapM_eq_ok_iff {f : α → Except ε β} {xs : List α} {ys : List β} :
    xs.mapM f = .ok ys ↔ List.Forall₂ (fun x y => f x = .ok y) xs ys := by
  induction xs generalizing ys with
  | nil =>
    rw [List.mapM_nil, List.forall₂_nil_left_iff]
    exact Except.ok.injEq [] ys ▸ eq_comm
  | cons x xs ih =>
    rw [List.mapM_cons, bind_eq_ok_iff, List.forall₂_cons_left_iff]
    refine exists_congr fun y => ?_
    rw [bind_eq_ok_iff, ← exists_and_left]
    refine exists_congr fun rest => ?_
    rw [ih, eq_comm (a := ys)]
    exact and_congr_right' (and_congr_right' (Except.ok.injEq (y :: rest) ys ▸ Iff.rfl))

/-- What holds of each result of a function holds of all that it gives for some items. -/
theorem forall_mem_of_mapM {f : α → Except ε β} {p : β → Prop} {xs : List α} {ys : List β}
    (hp : ∀ x y, f x = .ok y → p y) (h : xs.mapM f = .ok ys) : ∀ y ∈ ys, p y := by
  have hforall := mapM_eq_ok_iff.mp h
  clear h
  induction hforall with
  | nil => simp
  | cons hfirst _ ih => exact List.forall_mem_cons.mpr ⟨hp _ _ hfirst, ih⟩

end

namespace Attempt

variable {ι : Type} {step : Config → ι → Except Error Config} {items : List ι} {c c' : Config} {a : Attempt}

theorem ofResult_eq_iff {result : Except Error Config} : ofResult c result = ⟨c', none⟩ ↔ result = .ok c' := by
  cases result <;> simp [ofResult]

theorem andThen_eq_iff {next : Config → Attempt} :
    a.andThen next = ⟨c', none⟩ ↔ ∃ middle, a = ⟨middle, none⟩ ∧ next middle = ⟨c', none⟩ := by
  obtain ⟨config, error⟩ := a
  cases error <;> simp [andThen]

theorem each_cons_eq_iff {item : ι} :
    each step c (item :: items) = ⟨c', none⟩ ↔
      ∃ middle, step c item = .ok middle ∧ each step middle items = ⟨c', none⟩ := by
  rw [each]
  cases step c item <;> simp

/-- **What each step of a run carries on holds at its end.** A step knows which items went before it. -/
theorem each_induction {motive : List ι → Config → Prop} (hstart : motive [] c)
    (hstep : ∀ done item rest before after, items = done ++ item :: rest → motive done before →
      step before item = .ok after → motive (done ++ [item]) after)
    (hrun : each step c items = ⟨c', none⟩) : motive items c' := by
  suffices h : ∀ done rest before, items = done ++ rest → motive done before →
      each step before rest = ⟨c', none⟩ → motive items c' from h [] items c rfl hstart hrun
  intro done rest
  induction rest generalizing done with
  | nil =>
    intro before hitems hdone hrun
    obtain rfl := congrArg Attempt.config hrun
    rwa [hitems, List.append_nil]
  | cons item rest ih =>
    intro before hitems hdone hrun
    obtain ⟨after, hafter, hrest⟩ := each_cons_eq_iff.mp hrun
    exact ih (done ++ [item]) after (by simp [hitems]) (hstep done item rest before after hitems hdone hafter) hrest

/-- What each step keeps is kept by a run of them, even where one of them fails. -/
theorem each_keeps {P : Config → Prop} (hstart : P c)
    (hstep : ∀ item ∈ items, ∀ before after, P before → step before item = .ok after → P after) :
    P (each step c items).config := by
  induction items generalizing c with
  | nil => exact hstart
  | cons item rest ih =>
    obtain ⟨hitem, hrest⟩ := List.forall_mem_cons.mp hstep
    rw [each]
    cases hok : step c item with
    | ok after => exact ih (hitem c after hstart hok) hrest
    | error error => exact hstart

/-- What a run of steps leaves, even where one of them fails, is related to what it began with if each step is. -/
theorem each_config {R : Config → Config → Prop} (hrefl : ∀ c, R c c) (htrans : ∀ {a b c}, R a b → R b c → R a c)
    (hstep : ∀ before item after, step before item = .ok after → R before after) (c : Config) (items : List ι) :
    R c (each step c items).config := by
  refine each_keeps (hrefl c) ?_
  intro item _ before after hbefore hok
  exact htrans hbefore (hstep before item after hok)

theorem andThen_config {R : Config → Config → Prop} (htrans : ∀ {a b c}, R a b → R b c → R a c)
    {next : Config → Attempt} (h : R c a.config) (hnext : ∀ d, R d (next d).config) :
    R c (a.andThen next).config := by
  unfold andThen
  split
  · exact htrans h (hnext a.config)
  · exact h

/-- A run of steps that each change nothing or fail changes nothing, and succeeds if none of them fails. -/
theorem each_self (h : ∀ item ∈ items, step c item = .ok c ∨ ∃ error, step c item = .error error) :
    (∀ d, each step c items = ⟨d, none⟩ → d = c) ∧
      ((∃ d, each step c items = ⟨d, none⟩) ↔ ∀ item ∈ items, step c item = .ok c) := by
  induction items with
  | nil => simp [each, eq_comm]
  | cons item rest ih =>
    obtain ⟨hitem, hrest⟩ := List.forall_mem_cons.mp h
    rw [List.forall_mem_cons, each]
    rcases hitem with hitem | ⟨error, hitem⟩
    · simpa [hitem] using ih hrest
    · simp [hitem]

/-- **A run in which each step can follow the ones before it succeeds.** -/
theorem each_succeeds {motive : List ι → Config → Prop} (hstart : motive [] c)
    (hstep : ∀ done item rest before, items = done ++ item :: rest → motive done before →
      ∃ after, step before item = .ok after ∧ motive (done ++ [item]) after) :
    ∃ c', each step c items = ⟨c', none⟩ ∧ motive items c' := by
  suffices h : ∀ done rest before, items = done ++ rest → motive done before →
      ∃ c', each step before rest = ⟨c', none⟩ ∧ motive items c' from h [] items c rfl hstart
  intro done rest
  induction rest generalizing done with
  | nil =>
    intro before hitems hdone
    rw [List.append_nil] at hitems
    exact ⟨before, rfl, hitems ▸ hdone⟩
  | cons item rest ih =>
    intro before hitems hdone
    obtain ⟨after, hafter, hnext⟩ := hstep done item rest before hitems hdone
    obtain ⟨c', hc', hlast⟩ := ih (done ++ [item]) after (by simp [hitems]) hnext
    exact ⟨c', each_cons_eq_iff.mpr ⟨after, hafter, hc'⟩, hlast⟩

end Attempt

end LayeredConfig
