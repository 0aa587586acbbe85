import VectorGraphics.Graphic.Reading
import VectorGraphics.Proofs.Path.Openings

/-!
# Outcomes of reading

`Reading.Yields` says that a computation ends with a result, and `Reading.Succeeds` that there is
such a result. Both are worked out step by step, whatever notices are made.
-/

namespace VectorGraphics

/-- There is no path data, or the path data can be read. -/
def IsData (data : Option String) : Prop := ∀ d ∈ data, (Path.parse d).isOk = true

theorem isData_none : IsData none := nofun

theorem isData_some {d : String} : IsData (some d) ↔ (Path.parse d).isOk = true :=
  ⟨fun h => h d rfl, fun h _ hd => Option.some.inj hd ▸ h⟩

instance (data : Option String) : Decidable (IsData data) :=
  match data with
  | none => isTrue isData_none
  | some _ => decidable_of_iff _ isData_some.symm

namespace Reading

variable {α β : Type}

/-- The computation ends with the result `a`. -/
def Yields (x : Reading α) (a : α) : Prop := x.run.value = .ok a

/-- The computation ends with a result. -/
def Succeeds (x : Reading α) : Prop := ∃ a, Yields x a

theorem yields_pure {a b : α} : Yields (pure a) b ↔ a = b :=
  ⟨Except.ok.inj, congrArg Except.ok⟩

theorem not_yields_throw {e : ReadError} {a : α} : ¬Yields (throw e) a := nofun

theorem yields_lift {x : Logged α} {a : α} : Yields (ExceptT.lift x) a ↔ x.value = a :=
  ⟨Except.ok.inj, congrArg Except.ok⟩

/-- A notice is no error. -/
theorem yields_note {n : Notice} : Yields (note n) () := rfl

theorem yields_bind {x : Reading α} {f : α → Reading β} {b : β} :
    Yields (x >>= f) b ↔ ∃ a, Yields x a ∧ Yields (f a) b := by
  rw [Yields, ExceptT.run_bind, Logged.value_bind]
  constructor
  · intro h
    cases hx : x.run.value with
    | error e =>
      rw [hx] at h
      cases h
    | ok a =>
      rw [hx] at h
      exact ⟨a, hx, h⟩
  · rintro ⟨a, hx, h⟩
    rw [Yields] at hx
    rw [hx]
    exact h

/-- A last step that only wraps the result up. -/
theorem yields_bind_pure {x : Reading α} {f : α → β} {b : β} :
    Yields (x >>= fun a => pure (f a)) b ↔ ∃ a, Yields x a ∧ f a = b :=
  yields_bind.trans (exists_congr fun _ => and_congr_right fun _ => yields_pure)

/-- A check in front has to pass. -/
theorem yields_ite_throw {p : Prop} [Decidable p] {x : Reading α} {e : ReadError} {a : α} :
    Yields (if p then x else throw e) a ↔ p ∧ Yields x a := by
  split
  · next hp => exact (and_iff_right hp).symm
  · next hp => exact iff_of_false not_yields_throw fun h => hp h.1

/-- A list is computed by computing its head and its tail. -/
theorem yields_cons {x : Reading α} {xs : Reading (List α)} {as : List α} :
    Yields (do return (← x) :: (← xs)) as ↔
      ∃ b bs, Yields x b ∧ Yields xs bs ∧ as = b :: bs := by
  constructor
  · intro h
    obtain ⟨b, hx, h⟩ := yields_bind.1 h
    obtain ⟨bs, hxs, h⟩ := yields_bind.1 h
    exact ⟨b, bs, hx, hxs, (yields_pure.1 h).symm⟩
  · rintro ⟨b, bs, hx, hxs, rfl⟩
    exact yields_bind.2 ⟨b, hx, yields_bind.2 ⟨bs, hxs, yields_pure.2 rfl⟩⟩

/-- Two results of one computation are the same. -/
theorem Yields.unique {x : Reading α} {a b : α} (h : Yields x a) (h' : Yields x b) : a = b :=
  Except.ok.inj (h.symm.trans h')

theorem succeeds_pure (a : α) : Succeeds (pure a) := ⟨a, rfl⟩

theorem succeeds_bind {x : Reading α} {f : α → Reading β} :
    Succeeds (x >>= f) ↔ ∃ a, Yields x a ∧ Succeeds (f a) := by
  constructor
  · rintro ⟨b, h⟩
    obtain ⟨a, hx, hf⟩ := yields_bind.1 h
    exact ⟨a, hx, b, hf⟩
  · rintro ⟨a, hx, b, hf⟩
    exact ⟨b, yields_bind.2 ⟨a, hx, hf⟩⟩

/-- Whether a step succeeds often does not depend on the result before it. -/
theorem succeeds_bind_of_iff {x : Reading α} {f : α → Reading β} {p : Prop}
    (h : ∀ a, Yields x a → (Succeeds (f a) ↔ p)) :
    Succeeds (x >>= f) ↔ Succeeds x ∧ p := by
  rw [succeeds_bind]
  constructor
  · rintro ⟨a, hx, hf⟩
    exact ⟨⟨a, hx⟩, (h a hx).1 hf⟩
  · rintro ⟨⟨a, hx⟩, hp⟩
    exact ⟨a, hx, (h a hx).2 hp⟩

/-- A last step that only wraps the result up cannot fail. -/
theorem succeeds_bind_pure {x : Reading α} {f : α → β} :
    Succeeds (x >>= fun a => pure (f a)) ↔ Succeeds x :=
  (succeeds_bind_of_iff fun a _ => iff_true_intro (succeeds_pure (f a))).trans
    (iff_of_eq (and_true _))

instance [DecidableEq α] (x : Reading α) (a : α) : Decidable (Yields x a) :=
  decEq x.run.value (.ok a)

/-- Running the computation tells whether it has a result with a property. -/
instance (x : Reading α) (p : α → Prop) [DecidablePred p] :
    Decidable (∃ a, Yields x a ∧ p a) :=
  match h : x.run.value with
  | .ok a => decidable_of_iff (p a)
    ⟨fun hp => ⟨a, h, hp⟩, fun ⟨_, hb, hp⟩ => Yields.unique hb h ▸ hp⟩
  | .error _ => isFalse fun ⟨_, hb, _⟩ => nomatch hb.symm.trans h

instance (x : Reading α) : Decidable (Succeeds x) :=
  decidable_of_iff (∃ a, Yields x a ∧ True) (exists_congr fun _ => iff_of_eq (and_true _))

/-! ## Parts of a reader -/

theorem yields_document {s : String} {e : Markup.Element} :
    Yields (document s) e ↔ Markup.parse s = .ok e := by
  rw [document]
  cases Markup.parse s with
  | ok root => exact yields_pure.trans ⟨congrArg Except.ok, Except.ok.inj⟩
  | error error => exact iff_of_false not_yields_throw nofun

theorem succeeds_commands {data : Option String} : Succeeds (commands data) ↔ IsData data := by
  cases data with
  | none => exact iff_of_true (succeeds_pure _) isData_none
  | some d =>
    rw [commands, isData_some]
    cases Path.parse d with
    | ok cs => exact iff_of_true (succeeds_pure cs) rfl
    | error e => exact iff_of_false (fun ⟨_, h⟩ => not_yields_throw h) nofun

/-- What is read from path data begins with a move. -/
theorem isPath_of_yields_commands {data : Option String} {cs : List Path.Command}
    (h : Yields (commands data) cs) : Path.IsPath cs := by
  cases data with
  | none =>
    rw [← yields_pure.1 h]
    exact .nil
  | some d =>
    rw [commands] at h
    cases hparse : Path.parse d with
    | ok ds =>
      rw [hparse] at h
      rw [← yields_pure.1 h]
      exact Path.isPath_of_parse hparse
    | error e =>
      rw [hparse] at h
      exact absurd h not_yields_throw

end Reading

end VectorGraphics
