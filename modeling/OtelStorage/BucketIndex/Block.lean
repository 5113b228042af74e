import Mathlib.Algebra.Group.Nat.Defs
import Mathlib.Data.List.Sort
import Mathlib.Data.Set.Lattice
import OtelStorage.Foundation.Runs

/-!
# Blocks and block intervals

A part's identity is the set of blocks it covers.  A block is a term and a number inside the
term, ordered by term and then by number; a set of blocks is stored as its bounds together with
the runs *inside* the bounds that it skips.  The stored form is canonical: `Interval.valid`
accepts one encoding of each set, and every operation answers for the set when the encoding is
valid and treats it as unset otherwise.

Everything below is read through `Block.key`, which lays the blocks out on the numbers below
`2 ^ 128` in block order.  There `next` and `prev` are successor and predecessor, and the runs
of a valid interval are spread runs in the sense of `Foundation.Runs`.
-/

namespace OtelStorage.BucketIndex

open Runs

/-! ## Blocks -/

/-- A block id: the term that allocated it and its number within that term. Numbers start at 1, so
`⟨t, 0⟩` is only the point below the first block of a term. -/
structure Block where
  term : UInt64
  n : UInt64
  deriving DecidableEq, Repr

namespace Block

variable (b o : Block)

/-- Blocks order by term, then number. -/
def compare (o : Block) : Ordering :=
  if b.term ≠ o.term then Ord.compare b.term o.term else Ord.compare b.n o.n

/-- Strictly earlier in block order. -/
def less (o : Block) : Bool := b.compare o == .lt

/-- The successor in block order.  A number space that ends wraps into the next term. -/
def next : Block :=
  if b.n = 18446744073709551615 then ⟨b.term + 1, 0⟩ else ⟨b.term, b.n + 1⟩

/-- The predecessor in block order. -/
def prev : Block :=
  if b.n = 0 then ⟨b.term - 1, 18446744073709551615⟩ else ⟨b.term, b.n - 1⟩

/-- The place of a block in block order. -/
def key : ℕ := b.term.toNat * 2 ^ 64 + b.n.toNat

theorem key_eq : b.key = b.term.toNat * 2 ^ 64 + b.n.toNat := rfl

theorem key_lt : b.key < 2 ^ 128 := by
  have ht := b.term.toNat_lt
  have hn := b.n.toNat_lt
  unfold key
  omega

theorem key_injective : Function.Injective key := by
  intro b o h
  have hb := b.n.toNat_lt
  have ho := o.n.toNat_lt
  unfold key at h
  have ht : b.term.toNat = o.term.toNat := by omega
  have hn : b.n.toNat = o.n.toNat := by omega
  cases b
  cases o
  simp only [mk.injEq]
  exact ⟨UInt64.toNat_inj.mp ht, UInt64.toNat_inj.mp hn⟩

theorem term_eq_iff : b.term = o.term ↔ b.key / 2 ^ 64 = o.key / 2 ^ 64 := by
  have hb := b.n.toNat_lt
  have ho := o.n.toNat_lt
  rw [← UInt64.toNat_inj]
  unfold key
  omega

theorem n_toNat : b.n.toNat = b.key % 2 ^ 64 := by
  have hb := b.n.toNat_lt
  unfold key
  omega

theorem uint64_compare_lt_iff (x y : UInt64) : Ord.compare x y = .lt ↔ x.toNat < y.toNat := by
  exact compareOfLessAndEq_eq_lt

theorem compare_eq_iff : b.compare o = .eq ↔ b = o := by
  have hnat : ∀ x y : UInt64, Ord.compare x y = .eq ↔ x = y := fun x y => by
    show compareOfLessAndEq x y = .eq ↔ x = y
    simp only [compareOfLessAndEq]
    split
    · next h => simp [UInt64.ne_of_lt h]
    · split
      · next h => simp [h]
      · next h => simp [h]
  obtain ⟨bt, bn⟩ := b
  obtain ⟨ot, on⟩ := o
  rw [compare, Block.mk.injEq]
  split
  · next h =>
    rw [hnat]
    exact ⟨fun heq => absurd heq h, And.left⟩
  · next h =>
    rw [hnat]
    exact ⟨fun heq => ⟨not_not.mp h, heq⟩, And.right⟩

theorem less_iff : b.less o = true ↔ b.key < o.key := by
  have hb := b.n.toNat_lt
  have ho := o.n.toNat_lt
  unfold less compare key
  split
  · next hne =>
    have hne' : b.term.toNat ≠ o.term.toNat := fun h => hne (UInt64.toNat_inj.mp h)
    rw [beq_iff_eq, uint64_compare_lt_iff]
    omega
  · next heq =>
    have heq' : b.term.toNat = o.term.toNat := by rw [not_not.mp heq]
    rw [beq_iff_eq, uint64_compare_lt_iff]
    omega

theorem less_eq_false_iff : b.less o = false ↔ o.key ≤ b.key := by
  rw [← Bool.not_eq_true, less_iff, not_lt]

theorem key_next {b : Block} (h : b.key + 1 < 2 ^ 128) : b.next.key = b.key + 1 := by
  have ht := b.term.toNat_lt
  have hn := b.n.toNat_lt
  unfold key at h
  unfold next
  split
  · next htop =>
    have htop' : b.n.toNat = 2 ^ 64 - 1 := by rw [htop]; rfl
    simp only [key, UInt64.toNat_add, UInt64.toNat_one, UInt64.toNat_zero]
    omega
  · next htop =>
    have htop' : b.n.toNat ≠ 2 ^ 64 - 1 := fun h => htop (UInt64.toNat_inj.mp h)
    simp only [key, UInt64.toNat_add, UInt64.toNat_one]
    omega

theorem key_prev {b : Block} (h : 0 < b.key) : b.prev.key = b.key - 1 := by
  have ht := b.term.toNat_lt
  have hn := b.n.toNat_lt
  unfold key at h
  unfold prev
  split
  · next hzero =>
    have hzero' : b.n.toNat = 0 := by rw [hzero]; rfl
    have hmax : (18446744073709551615 : UInt64).toNat = 2 ^ 64 - 1 := rfl
    simp only [key, UInt64.toNat_sub, UInt64.toNat_one, hmax]
    omega
  · next hzero =>
    have hzero' : b.n.toNat ≠ 0 := fun h => hzero (UInt64.toNat_inj.mp h)
    simp only [key, UInt64.toNat_sub, UInt64.toNat_one]
    omega

-- comparisons of keys are settled by the lemmas above, never by computing the key
attribute [irreducible] key

theorem prev_next {b : Block} (h : b.key + 1 < 2 ^ 128) : b.next.prev = b := by
  apply key_injective
  rw [key_prev (by rw [key_next h]; omega), key_next h, Nat.add_sub_cancel]

theorem next_prev {b : Block} (h : 0 < b.key) : b.prev.next = b := by
  have hlt := b.key_lt
  apply key_injective
  rw [key_next (by rw [key_prev h]; omega), key_prev h]
  omega

end Block

/-- The earlier of `a` and `b` in block order. -/
def minBlock (a b : Block) : Block := if a.less b then a else b

/-- The later of `a` and `b` in block order. -/
def maxBlock (a b : Block) : Block := if a.less b then b else a

theorem key_minBlock (a b : Block) : (minBlock a b).key = min a.key b.key := by
  unfold minBlock
  split
  · next h => rw [Block.less_iff] at h; omega
  · next h => rw [Block.less_iff] at h; omega

theorem key_maxBlock (a b : Block) : (maxBlock a b).key = max a.key b.key := by
  unfold maxBlock
  split
  · next h => rw [Block.less_iff] at h; omega
  · next h => rw [Block.less_iff] at h; omega

end OtelStorage.BucketIndex
