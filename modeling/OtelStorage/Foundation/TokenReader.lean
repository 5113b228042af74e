import OtelStorage.Foundation.Wire

/-!
# Readers over a view of their state

A reader with buffers of its own keeps a state from which the tokens still ahead have to be
computed. `Takes view m ts a` says of a reader `m` that, wherever the tokens ahead begin with `ts`,
it returns `a` and leaves the rest ahead, whatever the state that shows them.  A format's proof then
speaks of the tokens only, and how the state holds them is settled once for each primitive.

The base-128 numbers of `Foundation.Wire` are read here byte by byte by any reader of bytes, at most
ten of them.
-/

namespace OtelStorage.TokenReader

open Delimited Wire

section Takes

variable {σ τ ε α β : Type} {view : σ → List τ → Prop} {m : StateT σ (Except ε) α}
  {f : α → StateT σ (Except ε) β} {ts : List τ} {a : α}

/-- The reader returns `a` off the tokens `ts` and leaves what follows them. -/
def Takes (view : σ → List τ → Prop) (m : StateT σ (Except ε) α) (ts : List τ) (a : α) : Prop :=
  ∀ s rest, view s (ts ++ rest) → ∃ s', m.run s = .ok (a, s') ∧ view s' rest

theorem Takes.pure (a : α) : Takes view (Pure.pure a : StateT σ (Except ε) α) [] a :=
  fun s _ h => ⟨s, rfl, h⟩

theorem Takes.bind {us : List τ} {b : β} (hm : Takes view m ts a) (hf : Takes view (f a) us b) :
    Takes view (m >>= f) (ts ++ us) b := by
  intro s rest h
  rw [List.append_assoc] at h
  obtain ⟨s', hrun, h'⟩ := hm s (us ++ rest) h
  obtain ⟨s'', hrun', h''⟩ := hf s' rest h'
  refine ⟨s'', ?_, h''⟩
  rw [StateT.run_bind, hrun]
  exact hrun'

theorem Takes.last {b : β} (hm : Takes view m ts a) (hf : Takes view (f a) [] b) :
    Takes view (m >>= f) ts b := by
  have h := hm.bind hf
  rwa [List.append_nil] at h

theorem Takes.map (f : α → β) (hm : Takes view m ts a) : Takes view (f <$> m) ts (f a) := by
  rw [map_eq_pure_bind]
  exact hm.last (Takes.pure _)

end Takes

/-! ## Numbers in groups of seven bits -/

section Uvarint

variable {σ τ ε : Type} {view : σ → List τ → Prop} {readByte : StateT σ (Except ε) Byte}
  {overflow : ε} {enc : Byte → List τ}

/-- The number from the groups still allowed, with `x` read so far and the next group going to bit
`s` of a 64-bit word. -/
def uvarintLoop (readByte : StateT σ (Except ε) Byte) (overflow : ε) :
    ℕ → ℕ → ℕ → StateT σ (Except ε) ℕ
  | 0, _, _ => throw overflow
  | k + 1, x, s => do
      let b ← readByte
      if b.val < 0x80 then
        return x ||| (b.val <<< s) % 2 ^ 64
      uvarintLoop readByte overflow k (x ||| ((b.val &&& 0x7f) <<< s) % 2 ^ 64) (s + 7)

theorem or_group {x b s : ℕ} (hx : x < 2 ^ s) (hb : b * 2 ^ s < 2 ^ 64) :
    x ||| (b <<< s) % 2 ^ 64 = x + b * 2 ^ s := by
  rw [Nat.shiftLeft_eq, Nat.mod_eq_of_lt hb, ← Nat.shiftLeft_eq, Nat.or_comm,
    ← Nat.shiftLeft_add_eq_or_of_lt hx, Nat.add_comm]

/-- What `appendUvarint` wrote is read, from any group on that still has room for it. -/
theorem takes_uvarintLoop (hbyte : ∀ b, Takes view readByte (enc b) b) (n i x : ℕ) (hi : i ≤ 9)
    (hx : x < 2 ^ (7 * i)) (hfits : n * 2 ^ (7 * i) < 2 ^ 64) :
    Takes view (uvarintLoop readByte overflow (10 - i) x (7 * i)) ((appendUvarint n).flatMap enc)
      (x + n * 2 ^ (7 * i)) := by
  induction n using Nat.strong_induction_on generalizing i x with
  | _ n ih =>
    obtain ⟨k, hk⟩ : ∃ k, 10 - i = k + 1 := ⟨9 - i, by omega⟩
    rw [hk, uvarintLoop]
    by_cases hn : n < 128
    · have hval : (Fin.ofNat 256 n).val = n := Nat.mod_eq_of_lt (by omega)
      rw [appendUvarint_of_lt hn, List.flatMap_singleton]
      refine (hbyte _).last ?_
      rw [hval, if_pos hn, or_group hx hfits]
      exact Takes.pure _
    have hval : (Fin.ofNat 256 (n % 128 + 128)).val = n % 128 + 128 := Nat.mod_eq_of_lt (by omega)
    have hsplit := split_group n i
    have hlow : (n % 128 + 128) &&& 0x7f = n % 128 := by
      rw [show 0x7f = 2 ^ 7 - 1 from rfl, Nat.and_two_pow_sub_one_eq_mod, Nat.add_mod_right,
        Nat.mod_mod]
    have hfill := add_group_lt hx (Nat.mod_lt n (show 0 < 128 by decide))
    rw [appendUvarint_of_le (Nat.le_of_not_lt hn), List.flatMap_cons]
    refine (hbyte _).bind ?_
    rw [hval, if_neg (by omega), hlow, or_group hx (by omega), hsplit, ← Nat.add_assoc]
    have hrest := ih (n / 128) (by omega) (i + 1) _ (lt_nine_of_fits hn hi hfits) hfill (by omega)
    rwa [show 10 - (i + 1) = k by omega, Nat.mul_succ] at hrest

/-- **A number below `2 ^ 64` is read back.** -/
theorem takes_uvarint (hbyte : ∀ b, Takes view readByte (enc b) b) {n : ℕ} (hn : n < 2 ^ 64) :
    Takes view (uvarintLoop readByte overflow 10 0 0) ((appendUvarint n).flatMap enc) n := by
  have h : Takes view (uvarintLoop readByte overflow (10 - 0) 0 (7 * 0)) _ (0 + n * 2 ^ (7 * 0)) :=
    takes_uvarintLoop hbyte n 0 0 (Nat.zero_le 9) Nat.one_pos
      (by rwa [Nat.mul_zero, Nat.pow_zero, Nat.mul_one])
  rwa [Nat.mul_zero, Nat.pow_zero, Nat.mul_one, Nat.zero_add] at h

end Uvarint

end OtelStorage.TokenReader
