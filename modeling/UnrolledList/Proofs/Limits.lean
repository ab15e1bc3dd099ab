import UnrolledList.Fault

/-!
# Operations that stop at nothing but a limit

Two of the faults are limits: a size that cannot be held, and the compressor that runs
into the end of its output. All others are broken promises, and an operation on a state
that is in order breaks none. `UnrolledList.Ensures` says this together with what the
operation gives, and its rules follow the `do` notation: one for a result
(`UnrolledList.ensures_ok`) and one for a sequence (`UnrolledList.Ensures.bind`).

Where it does not matter how an operation may fail, `UnrolledList.Gives` says what it
gives if it does not. Where it does matter, `UnrolledList.Stops` says what there must have been
for a limit to stop it, and `UnrolledList.Answers` is all of it together: the operation gives
what it should, or there was a reason.
-/

namespace UnrolledList

/-- Whether a fault is a limit and not a broken promise. -/
def Fault.IsLimit : Fault → Prop
  | overflow | outputOverrun => True
  | _ => False

variable {α β : Type} {m : Except Fault α} {f : α → Except Fault β} {q : α → Prop}
  {post post' : β → Prop}

/-- The operation gives a result with a property, or stops at a limit. -/
def Ensures (m : Except Fault α) (post : α → Prop) : Prop :=
  match m with
  | .ok a => post a
  | .error f => f.IsLimit

@[simp] theorem ensures_ok {a : α} {post : α → Prop} : Ensures (.ok a) post ↔ post a := Iff.rfl

@[simp] theorem ensures_pure {a : α} {post : α → Prop} :
    Ensures (pure a : Except Fault α) post ↔ post a := Iff.rfl

@[simp] theorem ensures_error {f : Fault} {post : α → Prop} :
    Ensures (.error f) post ↔ f.IsLimit := Iff.rfl

/-- What is given is passed on. -/
@[simp] theorem ok_bind (a : α) (f : α → Except Fault β) : (Except.ok a >>= f) = f a := rfl

/-- A fault ends the sequence. -/
@[simp] theorem error_bind (e : Fault) (f : α → Except Fault β) :
    (Except.error e >>= f) = .error e := rfl

/-- A property that can be computed of a result says that there is one. -/
theorem exists_eq_ok {P : α → Prop} [DecidablePred P]
    (h : m.map (fun a => decide (P a)) = .ok true) : ∃ a, m = .ok a ∧ P a := by
  cases m with
  | error f => contradiction
  | ok a => exact ⟨a, rfl, of_decide_eq_true (Except.ok.inj h)⟩

/-- What was computed of a result says that there is one. -/
theorem exists_of_map_eq_ok {g : α → β} {b : β} (h : m.map g = .ok b) :
    ∃ a, m = .ok a ∧ g a = b := by
  cases m with
  | error f => contradiction
  | ok a => exact ⟨a, rfl, Except.ok.inj h⟩

namespace Ensures

/-- One operation after another. -/
theorem bind (h : Ensures m q) (hf : ∀ a, q a → Ensures (f a) post) :
    Ensures (m >>= f) post := by
  cases m with
  | error f => exact h
  | ok a => exact hf a h

theorem map {g : α → β} (h : Ensures m q) (hg : ∀ a, q a → post (g a)) :
    Ensures (m.map g) post := by
  cases m with
  | error f => exact h
  | ok a => exact hg a h

theorem imp {m : Except Fault β} (h : Ensures m post) (himp : ∀ b, post b → post' b) :
    Ensures m post' := by
  cases m with
  | error f => exact h
  | ok b => exact himp b h

/-- What is given may be named. -/
theorem self (h : Ensures m q) : Ensures m fun a => m = .ok a ∧ q a := by
  cases m with
  | error f => exact h
  | ok a => exact ⟨rfl, h⟩

end Ensures

theorem subtract_eq {a b : Nat} (h : b ≤ a) : subtract a b = .ok (a - b) :=
  if_pos h

/-- What the operation gives, if it gives anything, has a property. -/
def Gives (m : Except Fault α) (post : α → Prop) : Prop :=
  ∀ a, m = .ok a → post a

theorem Ensures.gives {post : α → Prop} (h : Ensures m post) : Gives m post := by
  rintro a rfl
  exact h

@[simp] theorem gives_ok {a : α} {post : α → Prop} : Gives (.ok a) post ↔ post a := by
  simp [Gives]

@[simp] theorem gives_pure {a : α} {post : α → Prop} :
    Gives (pure a : Except Fault α) post ↔ post a := gives_ok

@[simp] theorem gives_error {f : Fault} {post : α → Prop} : Gives (.error f) post := by
  simp [Gives]

namespace Gives

/-- One operation after another. -/
theorem bind (h : Gives m q) (hf : ∀ a, q a → Gives (f a) post) : Gives (m >>= f) post := by
  cases m with
  | error f => exact gives_error
  | ok a => exact hf a (h a rfl)

/-- After an operation of which nothing is known. -/
theorem bind_any (hf : ∀ a, Gives (f a) post) : Gives (m >>= f) post := by
  cases m with
  | error f => exact gives_error
  | ok a => exact hf a

/-- What is made of a result. -/
theorem map {g : α → β} (h : Gives m q) (hg : ∀ a, q a → post (g a)) : Gives (m.map g) post := by
  cases m with
  | error f => exact gives_error
  | ok a => exact gives_ok.mpr (hg a (h a rfl))

theorem imp {m : Except Fault β} (h : Gives m post) (himp : ∀ b, post b → post' b) :
    Gives m post' :=
  fun b hb => himp b (h b hb)

theorem and {m : Except Fault β} (h : Gives m post) (h' : Gives m post') :
    Gives m fun b => post b ∧ post' b :=
  fun b hb => ⟨h b hb, h' b hb⟩

end Gives

/-- If a limit stops the operation, then there is a reason for it. -/
def Stops (m : Except Fault α) (why : Fault → Prop) : Prop :=
  ∀ f, m = .error f → f.IsLimit → why f

section Stops

variable {why why' : Fault → Prop}

/-- What gives a result is not stopped. -/
@[simp] theorem stops_ok {a : α} : Stops (.ok a) why := nofun

@[simp] theorem stops_pure {a : α} : Stops (pure a : Except Fault α) why := nofun

theorem stops_error {f : Fault} (h : f.IsLimit → why f) :
    Stops (.error f : Except Fault α) why := by
  intro e he
  obtain rfl := Except.error.inj he
  exact h

/-- Counters are stopped by a broken promise, and not by a limit. -/
theorem stops_subtract (a b : Nat) : Stops (subtract a b) why := by
  unfold subtract
  split
  · exact stops_ok
  · exact stops_error False.elim

namespace Stops

/-- One operation after another. -/
theorem bind (h : Stops m why) (hm : Gives m q) (hf : ∀ a, q a → Stops (f a) why) :
    Stops (m >>= f) why := by
  cases m with
  | error e => exact stops_error (h e rfl)
  | ok a => exact hf a (hm a rfl)

/-- After an operation of which nothing is known but why it stops. -/
theorem bind_any (h : Stops m why) (hf : ∀ a, Stops (f a) why) : Stops (m >>= f) why :=
  h.bind (q := fun _ => True) (fun _ _ => trivial) fun a _ => hf a

theorem map {g : α → β} (h : Stops m why) : Stops (m.map g) why := by
  cases m with
  | error e => exact stops_error (h e rfl)
  | ok a => exact stops_ok

theorem imp (h : Stops m why) (himp : ∀ e, why e → why' e) : Stops m why' :=
  fun e he hlimit => himp e (h e he hlimit)

end Stops

/-- A result has a property, and a limit that stops the operation has a reason. -/
def Explained (m : Except Fault α) (post : α → Prop) (why : Fault → Prop) : Prop :=
  Gives m post ∧ Stops m why

@[simp] theorem explained_ok {a : α} {post : α → Prop} :
    Explained (.ok a) post why ↔ post a := by
  simp [Explained]

@[simp] theorem explained_pure {a : α} {post : α → Prop} :
    Explained (pure a : Except Fault α) post why ↔ post a := explained_ok

/-- Why it stops is all that is to be known. -/
theorem Stops.explained (h : Stops m why) : Explained m (fun _ => True) why :=
  ⟨fun _ _ => trivial, h⟩

namespace Explained

/-- One operation after another. -/
theorem bind (h : Explained m q why) (hf : ∀ a, q a → Explained (f a) post why) :
    Explained (m >>= f) post why :=
  ⟨h.1.bind fun a ha => (hf a ha).1, h.2.bind h.1 fun a ha => (hf a ha).2⟩

/-- An operation of which only that is to be known why it stops. -/
theorem stops_bind (h : Explained m q why) (hf : ∀ a, q a → Stops (f a) why) :
    Stops (m >>= f) why :=
  h.2.bind h.1 hf

/-- What is known of a result may come from two sides. -/
theorem and_gives {m : Except Fault β} (h : Explained m post why) (h' : Gives m post') :
    Explained m (fun b => post b ∧ post' b) why :=
  ⟨h.1.and h', h.2⟩

end Explained

/-- The operation gives a result with a property, or there is a reason why it does not. -/
def Answers (m : Except Fault α) (post : α → Prop) (why : Fault → Prop) : Prop :=
  match m with
  | .ok a => post a
  | .error f => why f

/-- An operation that breaks no promise answers, if it is known why it stops. -/
theorem Ensures.answers {post : α → Prop} (h : Ensures m post) (hstops : Stops m why) :
    Answers m post why := by
  cases m with
  | error e => exact hstops e rfl h
  | ok a => exact h

/-- What gives a result has given it. -/
theorem Answers.of_ok {a : α} {post : α → Prop} (h : Answers m post why) (hm : m = .ok a) :
    post a := by
  subst hm
  exact h

end Stops

/-- What is known of a result may come from two sides. -/
theorem Ensures.and_gives {m : Except Fault β} (h : Ensures m post) (h' : Gives m post') :
    Ensures m fun b => post b ∧ post' b := by
  cases m with
  | error f => exact h
  | ok b => exact ⟨h, h' b rfl⟩

end UnrolledList
