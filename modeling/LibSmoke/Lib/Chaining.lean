import Mathlib.Data.List.Basic
import Mathlib.Data.List.Infix

/-!
# Block ciphers in a chain

A cipher made of rounds is undone by the rounds undone from the last to the first
(`foldl_undo`). A cipher on blocks is put to work on a message by chaining: each block
is mixed with the block of ciphertext before it and then encrypted, and what is left of
a call is the last block of ciphertext, where the next call begins. So it does not
matter how a message is cut into calls (`encrypt_append`), and decrypting gives it back
(`decrypt_encrypt`).

Decrypting looks at each block of ciphertext and the one before it and at nothing else
(`decrypt_eq`). What is damaged on the way spoils two blocks at most.
-/

namespace Chaining

variable {σ ι β : Type}

theorem foldl_undo {f g : σ → ι → σ} (h : ∀ s i, g (f s i) i = s) (is : List ι) (s : σ) :
    is.reverse.foldl g (is.foldl f s) = s := by
  induction is generalizing s with
  | nil => rfl
  | cons i is ih =>
      rw [List.foldl_cons, List.reverse_cons, List.foldl_append, ih]
      exact h s i

section Chain

variable (enc dec : β → β) (mix : β → β → β)

/-- The ciphertext, and the block the next call begins with. -/
def encrypt : β → List β → List β × β
  | iv, [] => ([], iv)
  | iv, b :: bs =>
      let r := encrypt (enc (mix b iv)) bs
      (enc (mix b iv) :: r.1, r.2)

def decrypt : β → List β → List β × β
  | iv, [] => ([], iv)
  | iv, c :: cs =>
      let r := decrypt c cs
      (mix (dec c) iv :: r.1, r.2)

theorem encrypt_append (iv : β) (bs bs' : List β) :
    encrypt enc mix iv (bs ++ bs') =
      ((encrypt enc mix iv bs).1 ++ (encrypt enc mix (encrypt enc mix iv bs).2 bs').1,
        (encrypt enc mix (encrypt enc mix iv bs).2 bs').2) := by
  induction bs generalizing iv with
  | nil => rfl
  | cons b bs ih =>
      rw [List.cons_append, encrypt, ih]
      rfl

theorem decrypt_append (iv : β) (cs cs' : List β) :
    decrypt dec mix iv (cs ++ cs') =
      ((decrypt dec mix iv cs).1 ++ (decrypt dec mix (decrypt dec mix iv cs).2 cs').1,
        (decrypt dec mix (decrypt dec mix iv cs).2 cs').2) := by
  induction cs generalizing iv with
  | nil => rfl
  | cons c cs ih =>
      rw [List.cons_append, decrypt, ih]
      rfl

/-- Each block comes from the block of ciphertext in its place and the one before. -/
theorem decrypt_eq (iv : β) (cs : List β) :
    (decrypt dec mix iv cs).1 = List.zipWith (fun c p => mix (dec c) p) cs (iv :: cs) := by
  induction cs generalizing iv with
  | nil => rfl
  | cons c cs ih =>
      rw [decrypt, List.zipWith_cons_cons, ih]

variable {enc dec mix}

/-- Decrypting undoes encrypting, and the two sides go on from the same block. -/
theorem decrypt_encrypt (hcipher : ∀ b, dec (enc b) = b) (hmix : ∀ a b, mix (mix a b) b = a)
    (iv : β) (bs : List β) :
    decrypt dec mix iv (encrypt enc mix iv bs).1 = (bs, (encrypt enc mix iv bs).2) := by
  induction bs generalizing iv with
  | nil => rfl
  | cons b bs ih =>
      rw [encrypt, decrypt, ih, hcipher, hmix]

end Chain

/-! ## Calls -/

section Calls

variable {α γ : Type}

/-- The outputs of a list of calls, each from the state the one before has left. -/
def calls (f : σ → List α → List γ × σ) : σ → List (List α) → List (List γ) × σ
  | s, [] => ([], s)
  | s, x :: xs =>
      let r := calls f (f s x).2 xs
      ((f s x).1 :: r.1, r.2)

/-- Where a call on two parts is a call on each, it does not matter how what is called
is cut. -/
theorem calls_flatten {f : σ → List α → List γ × σ} (hnil : ∀ s, f s [] = ([], s))
    (happend : ∀ s x y, f s (x ++ y) =
      ((f s x).1 ++ (f (f s x).2 y).1, (f (f s x).2 y).2))
    (s : σ) (xs : List (List α)) :
    f s xs.flatten = ((calls f s xs).1.flatten, (calls f s xs).2) := by
  induction xs generalizing s with
  | nil => exact hnil s
  | cons x xs ih =>
      rw [List.flatten_cons, happend, ih, calls, List.flatten_cons]

end Calls

end Chaining
