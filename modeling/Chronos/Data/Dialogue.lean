import Mathlib.Logic.Basic

-- Programs that ask questions of a party whose answers depend on all that was said before.
namespace Dialogue

-- It answers a question, or fails.
abbrev Party (Q A E : Type) := List (Q × A) → Q → Except E A

-- What was said is what the party answers.
inductive Held {Q A E : Type} (party : Party Q A E) : List (Q × A) → Prop
  | nil : Held party []
  | snoc {said : List (Q × A)} {q : Q} {a : A} (h : Held party said)
      (ha : party said q = .ok a) : Held party (said ++ [(q, a)])

-- A program is given what was said so far, and adds to it also when it fails.
def Talk (Q A E α : Type) := List (Q × A) → Except E α × List (Q × A)

namespace Talk

variable {Q A E E' α β : Type} {said : List (Q × A)}

def result (r : α) : Talk Q A E α := fun said => (.ok r, said)

def raise (e : E) : Talk Q A E α := fun said => (.error e, said)

def next (x : Talk Q A E α) (f : α → Talk Q A E β) : Talk Q A E β := fun said =>
  match x said with
  | (.ok r, said) => f r said
  | (.error e, said) => (.error e, said)

instance : Monad (Talk Q A E) where
  pure := result
  bind := next

def ask (party : Party Q A E') (err : E' → E) (q : Q) : Talk Q A E A := fun said =>
  match party said q with
  | .ok a => (.ok a, said ++ [(q, a)])
  | .error e => (.error (err e), said)

-- After `said`, the program returns as `post` says or fails as `fail` says.
def wp (x : Talk Q A E α) (post : α → List (Q × A) → Prop) (fail : E → List (Q × A) → Prop)
    (said : List (Q × A)) : Prop :=
  match x said with
  | (.ok r, said) => post r said
  | (.error e, said) => fail e said

variable {post post' : α → List (Q × A) → Prop} {fail : E → List (Q × A) → Prop}

@[simp] theorem wp_pure (r : α) : wp (pure r) post fail said ↔ post r said := Iff.rfl

@[simp] theorem wp_bind (x : Talk Q A E α) (f : α → Talk Q A E β)
    {post : β → List (Q × A) → Prop} :
    wp (x >>= f) post fail said ↔ wp x (fun r => wp (f r) post fail) fail said := by
  change wp (next x f) post fail said ↔ _
  simp only [wp, next]
  rcases x said with ⟨_ | _, _⟩ <;> rfl

theorem wp_ask (party : Party Q A E') (err : E' → E) (q : Q)
    {post : A → List (Q × A) → Prop}
    (hanswer : ∀ a, party said q = .ok a → post a (said ++ [(q, a)]))
    (hfail : ∀ e, party said q = .error e → fail (err e) said) :
    wp (ask party err q) post fail said := by
  rw [wp, ask]
  cases h : party said q with
  | ok a => exact hanswer a h
  | error e => exact hfail e h

theorem wp_mono {x : Talk Q A E α} (h : wp x post fail said)
    (hpost : ∀ r said, post r said → post' r said) : wp x post' fail said := by
  rw [wp] at h ⊢
  split at h
  · exact hpost _ _ h
  · exact h

theorem wp_iff {x : Talk Q A E α} : wp x post fail said ↔
    (∀ r said', x said = (.ok r, said') → post r said') ∧
      ∀ e said', x said = (.error e, said') → fail e said' := by
  rw [wp]
  rcases x said with ⟨_ | _, _⟩ <;> simp

end Talk

end Dialogue
