import UnrolledList.Proofs.Limits

/-!
# Two operations side by side

Two operations **agree** (`UnrolledList.Agree`) if they give results that are related, or
stop at the same fault. One fault is set apart: where the compressor runs into the end of
its output, nothing is said of the other side, because whether a block is compressed at all
is not the same on both sides.

The rules follow the `do` notation, as those of `UnrolledList.Ensures` do. An operation that
does its work on one side alone, and leaves a result behind that is still related to what
stands on the other, agrees with the operation that does nothing
(`UnrolledList.Agree.of_ok`).

Where both sides compress the same blocks no fault has to be set apart, and the operations
**concur** (`UnrolledList.Concur`).
-/

namespace UnrolledList

variable {α β γ δ : Type} {R : α → β → Prop} {S : γ → δ → Prop}

/-- The operations give related results or stop at the same fault, unless the compressor
stops one of them. -/
inductive Agree (R : α → β → Prop) : Except Fault α → Except Fault β → Prop
  /-- Both give a result. -/
  | ok {a : α} {b : β} (h : R a b) : Agree R (.ok a) (.ok b)
  /-- Both stop, at the same fault. -/
  | error (f : Fault) : Agree R (.error f) (.error f)
  /-- The compressor stops the first one. -/
  | overrunFirst (m : Except Fault β) : Agree R (.error .outputOverrun) m
  /-- The compressor stops the second one. -/
  | overrunSecond (m : Except Fault α) : Agree R m (.error .outputOverrun)

/-- What is given is related. -/
theorem agree_pure {a : α} {b : β} (h : R a b) :
    Agree R (pure a : Except Fault α) (pure b : Except Fault β) :=
  .ok h

/-- An operation agrees with itself, if what it gives is related to itself. -/
theorem agree_self {R : α → α → Prop} {m : Except Fault α} (h : Gives m fun a => R a a) :
    Agree R m m := by
  cases m with
  | error f => exact .error f
  | ok a => exact .ok (h a rfl)

/-- What both sides do in the same way. -/
theorem agree_eq {m : Except Fault α} : Agree Eq m m :=
  agree_self fun _ _ => rfl

namespace Agree

variable {m : Except Fault α} {m' : Except Fault β}

/-- One operation after another, on both sides. -/
theorem bind {f : α → Except Fault γ} {g : β → Except Fault δ} (h : Agree R m m')
    (hf : ∀ a b, R a b → Agree S (f a) (g b)) : Agree S (m >>= f) (m' >>= g) := by
  cases h with
  | ok h => exact hf _ _ h
  | error e => exact .error e
  | overrunFirst => exact .overrunFirst _
  | overrunSecond => exact .overrunSecond _

theorem bind_eq {m m' : Except Fault α} {f : α → Except Fault γ} {g : α → Except Fault δ}
    (h : Agree Eq m m') (hf : ∀ a, Agree S (f a) (g a)) : Agree S (m >>= f) (m' >>= g) := by
  refine h.bind ?_
  rintro a _ rfl
  exact hf a

theorem map {f : α → γ} {g : β → δ} (h : Agree R m m') (hf : ∀ a b, R a b → S (f a) (g b)) :
    Agree S (m.map f) (m'.map g) := by
  cases h with
  | ok h => exact .ok (hf _ _ h)
  | error e => exact .error e
  | overrunFirst => exact .overrunFirst _
  | overrunSecond => exact .overrunSecond _

/-- An operation that has work done before it, on its side alone. -/
theorem bind_first {f : α → Except Fault γ} {b : β} {m' : Except Fault δ} (h : Agree R m (.ok b))
    (hf : ∀ a, R a b → Agree S (f a) m') : Agree S (m >>= f) m' := by
  cases h with
  | ok h => exact hf _ h
  | overrunFirst => exact .overrunFirst _

/-- The work that is done on one side leaves the relation as it is; so does the work that is
done on the other. -/
theorem of_ok {R : α → α → Prop} (hsymm : ∀ a b, R a b → R b a)
    (htrans : ∀ a b c, R a b → R b c → R a c) {m m' : Except Fault α} {a : α}
    (h : Agree R m (.ok a)) (h' : Agree R m' (.ok a)) : Agree R m m' := by
  cases h with
  | overrunFirst => exact .overrunFirst _
  | ok h =>
    cases h' with
    | overrunFirst => exact .overrunSecond _
    | ok h' => exact .ok (htrans _ _ _ h (hsymm _ _ h'))

end Agree

/-- The operations give related results or stop at the same fault. -/
inductive Concur (R : α → β → Prop) : Except Fault α → Except Fault β → Prop
  /-- Both give a result. -/
  | ok {a : α} {b : β} (h : R a b) : Concur R (.ok a) (.ok b)
  /-- Both stop, at the same fault. -/
  | error (f : Fault) : Concur R (.error f) (.error f)

theorem concur_pure {a : α} {b : β} (h : R a b) :
    Concur R (pure a : Except Fault α) (pure b : Except Fault β) :=
  .ok h

namespace Concur

variable {m : Except Fault α} {m' : Except Fault β}

/-- One operation after another, on both sides. -/
theorem bind {f : α → Except Fault γ} {g : β → Except Fault δ} (h : Concur R m m')
    (hf : ∀ a b, R a b → Concur S (f a) (g b)) : Concur S (m >>= f) (m' >>= g) := by
  cases h with
  | ok h => exact hf _ _ h
  | error e => exact .error e

theorem map {f : α → γ} {g : β → δ} (h : Concur R m m') (hf : ∀ a b, R a b → S (f a) (g b)) :
    Concur S (m.map f) (m'.map g) := by
  cases h with
  | ok h => exact .ok (hf _ _ h)
  | error e => exact .error e

/-- After an operation that is the same on both sides. -/
theorem bind_same {f : α → Except Fault γ} {g : α → Except Fault δ}
    (hf : ∀ a, Concur S (f a) (g a)) : Concur S (m >>= f) (m >>= g) := by
  cases m with
  | error e => exact .error e
  | ok a => exact hf a

end Concur

end UnrolledList
