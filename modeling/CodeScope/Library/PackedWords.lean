import Mathlib

/-! # Arrays of words as bytes

Natural numbers packed as little-endian words of `w` bytes, one after the other, and read back by
their index. Reading drops a partial word at the end. -/

namespace PackedWords

/-- The `w` low bytes of `n`, low byte first. -/
def toBytes : Nat → Nat → List UInt8
  | 0, _ => []
  | w + 1, n => UInt8.ofNat n :: toBytes w (n / 256)

def ofBytes : List UInt8 → Nat
  | [] => 0
  | b :: rest => b.toNat + 256 * ofBytes rest

def pack (w : Nat) (ns : List Nat) : List UInt8 := ns.flatMap (toBytes w)

def unpack (w : Nat) (bytes : List UInt8) : List Nat :=
  (List.range (bytes.length / w)).map fun i => ofBytes ((bytes.drop (i * w)).take w)

@[simp] theorem length_toBytes (w n : Nat) : (toBytes w n).length = w := by
  induction w generalizing n with
  | zero => rfl
  | succ w ih => rw [toBytes, List.length_cons, ih]

theorem ofBytes_toBytes {w n : Nat} (h : n < 256 ^ w) : ofBytes (toBytes w n) = n := by
  induction w generalizing n with
  | zero =>
      have hzero : n = 0 := by simpa using h
      rw [hzero]
      rfl
  | succ w ih =>
      have hdiv : n / 256 < 256 ^ w := by
        rw [Nat.div_lt_iff_lt_mul (by decide)]
        rwa [Nat.pow_succ] at h
      rw [toBytes, ofBytes, ih hdiv]
      have hlow : (UInt8.ofNat n).toNat = n % 256 := by simp
      rw [hlow]
      omega

@[simp] theorem length_pack (w : Nat) (ns : List Nat) : (pack w ns).length = ns.length * w := by
  induction ns with
  | nil => simp [pack]
  | cons n rest ih =>
      have hcons : pack w (n :: rest) = toBytes w n ++ pack w rest := rfl
      rw [hcons, List.length_append, ih, length_toBytes, List.length_cons, Nat.succ_mul,
        Nat.add_comm]

@[simp] theorem length_unpack (w : Nat) (bytes : List UInt8) :
    (unpack w bytes).length = bytes.length / w := by
  simp [unpack]

theorem drop_pack (w i : Nat) (ns : List Nat) : (pack w ns).drop (i * w) = pack w (ns.drop i) := by
  induction ns generalizing i with
  | nil => simp [pack]
  | cons n rest ih =>
      cases i with
      | zero => simp
      | succ i =>
          have hcons : pack w (n :: rest) = toBytes w n ++ pack w rest := rfl
          have hlen : (i + 1) * w = (toBytes w n).length + i * w := by
            rw [length_toBytes, Nat.succ_mul, Nat.add_comm]
          rw [hcons, hlen, List.drop_append, List.drop_succ_cons, ← ih i]
          simp

/-- **Packed words are read back.** -/
theorem unpack_pack {w : Nat} {ns : List Nat} (hw : 0 < w) (h : ∀ n ∈ ns, n < 256 ^ w) :
    unpack w (pack w ns) = ns := by
  have hlen : (unpack w (pack w ns)).length = ns.length := by
    rw [length_unpack, length_pack, Nat.mul_div_cancel _ hw]
  refine List.ext_getElem hlen ?_
  intro i hi hi'
  have hdrop : ns.drop i = ns[i] :: ns.drop (i + 1) := List.drop_eq_getElem_cons hi'
  have hword : ((pack w ns).drop (i * w)).take w = toBytes w ns[i] := by
    have hcons : pack w (ns[i] :: ns.drop (i + 1)) = toBytes w ns[i] ++ pack w (ns.drop (i + 1)) :=
      rfl
    rw [drop_pack, hdrop, hcons]
    exact List.take_left' (length_toBytes w ns[i])
  have hread : (unpack w (pack w ns))[i] = ofBytes (((pack w ns).drop (i * w)).take w) := by
    simp [unpack]
  rw [hread, hword]
  exact ofBytes_toBytes (h _ (List.getElem_mem hi'))

end PackedWords
