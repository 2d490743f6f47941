import Mathlib.Algebra.Group.Nat.Defs
import TripleStore.Record.NodeId

/-!
# The order of bytes is the order of numbers

Byte strings of one length are compared like the numbers whose digits they are, so keys that are
made of ids sort like the ids do. The sentinels take part in this with their raw bits.
-/

namespace TripleStore.Bytes

theorem foldl_digits (bs : List UInt8) (n : Nat) :
    bs.foldl (fun n b => 256 * n + b.toNat) n = n * 256 ^ bs.length + toNat bs := by
  induction bs generalizing n with
  | nil => simp [toNat]
  | cons b bs ih =>
    have h := ih b.toNat
    simp only [toNat, List.foldl_cons, List.length_cons, Nat.mul_zero, Nat.zero_add] at h ⊢
    rw [ih, h, Nat.pow_succ, Nat.add_mul, Nat.add_assoc]
    congr 1
    rw [Nat.mul_comm 256 n, Nat.mul_assoc, Nat.mul_comm 256]

theorem toNat_cons (b : UInt8) (bs : List UInt8) :
    toNat (b :: bs) = b.toNat * 256 ^ bs.length + toNat bs := by
  rw [← foldl_digits]
  simp [toNat]

theorem toNat_lt (bs : List UInt8) : toNat bs < 256 ^ bs.length := by
  induction bs with
  | nil => simp [toNat]
  | cons b bs ih =>
    have hb : b.toNat + 1 ≤ 256 := b.toNat_lt
    have hm := Nat.mul_le_mul_right (256 ^ bs.length) hb
    rw [toNat_cons, List.length_cons, Nat.pow_succ, Nat.mul_comm (256 ^ bs.length)]
    rw [Nat.add_mul] at hm
    omega

/-- Digits of equal number are ordered like the numbers they stand for. -/
theorem lt_iff_toNat_lt {a b : List UInt8} (h : a.length = b.length) :
    a < b ↔ toNat a < toNat b := by
  induction a generalizing b with
  | nil => obtain rfl := List.eq_nil_of_length_eq_zero h.symm; simp
  | cons x a ih =>
    cases b with
    | nil => simp at h
    | cons y b =>
      have hl : a.length = b.length := by simpa using h
      have ha := toNat_lt a
      have hb := toNat_lt b
      rw [List.cons_lt_cons_iff, ih hl, toNat_cons, toNat_cons, hl, UInt8.lt_iff_toNat_lt]
      rw [hl] at ha
      -- the greater first digit decides, because the rest stays below one unit of it
      rcases Nat.lt_trichotomy x.toNat y.toNat with hxy | hxy | hxy
      · have hm := Nat.mul_le_mul_right (256 ^ b.length) (Nat.succ_le_of_lt hxy)
        rw [Nat.succ_mul] at hm
        exact ⟨fun _ => by omega, fun _ => .inl hxy⟩
      · have he : x = y := UInt8.toNat.inj hxy
        simp [he]
      · have hm := Nat.mul_le_mul_right (256 ^ b.length) (Nat.succ_le_of_lt hxy)
        rw [Nat.succ_mul] at hm
        have hne : x ≠ y := fun he => by rw [he] at hxy; omega
        constructor
        · rintro (hlt | ⟨he, -⟩)
          · omega
          · exact absurd he hne
        · omega

theorem ofNat_succ (width n : Nat) :
    ofNat (width + 1) n = UInt8.ofNat (n / 256 ^ width) :: ofNat width n := rfl

theorem toNat_ofNat (width n : Nat) : toNat (ofNat width n) = n % 256 ^ width := by
  induction width with
  | zero => simp [ofNat, toNat, Nat.mod_one]
  | succ width ih =>
    have hd : (UInt8.ofNat (n / 256 ^ width)).toNat = n / 256 ^ width % 256 := UInt8.toNat_ofNat'
    rw [ofNat_succ, toNat_cons, ih, length_ofNat, hd, Nat.pow_succ, Nat.mod_mul,
      Nat.mul_comm (256 ^ width), Nat.add_comm]

theorem toNat_ofNat_of_lt {width n : Nat} (h : n < 256 ^ width) :
    toNat (ofNat width n) = n := by
  rw [toNat_ofNat, Nat.mod_eq_of_lt h]

/-- A first part of equal length decides, unless it is the same. -/
theorem append_lt_append_iff {a b c d : List UInt8} (h : a.length = b.length) :
    a ++ c < b ++ d ↔ a < b ∨ a = b ∧ c < d := by
  induction a generalizing b with
  | nil => obtain rfl := List.eq_nil_of_length_eq_zero h.symm; simp
  | cons x a ih =>
    cases b with
    | nil => simp at h
    | cons y b =>
      have hl : a.length = b.length := by simpa using h
      simp only [List.cons_append, List.cons_lt_cons_iff, ih hl, List.cons.injEq]
      constructor
      · rintro (hlt | ⟨he, hab | ⟨rfl, hcd⟩⟩)
        · exact .inl (.inl hlt)
        · exact .inl (.inr ⟨he, hab⟩)
        · exact .inr ⟨⟨he, rfl⟩, hcd⟩
      · rintro ((hlt | ⟨he, hab⟩) | ⟨⟨he, rfl⟩, hcd⟩)
        · exact .inl hlt
        · exact .inr ⟨he, .inl hab⟩
        · exact .inr ⟨he, .inr ⟨rfl, hcd⟩⟩

end TripleStore.Bytes

namespace TripleStore.NodeId

theorem toNat_toBytes (id : NodeId) : Bytes.toNat id.toBytes = id.toRaw.toNat :=
  Bytes.toNat_ofNat_of_lt id.toRaw.toNat_lt

theorem toBytes_lt_iff (a b : NodeId) : a.toBytes < b.toBytes ↔ a.toRaw < b.toRaw := by
  rw [Bytes.lt_iff_toNat_lt (by simp), toNat_toBytes, toNat_toBytes, UInt64.lt_iff_toNat_lt]

theorem toBytes_eq_iff (a b : NodeId) : a.toBytes = b.toBytes ↔ a.toRaw = b.toRaw := by
  constructor
  · intro h
    have hn := congrArg Bytes.toNat h
    rw [toNat_toBytes, toNat_toBytes] at hn
    exact UInt64.toNat.inj hn
  · intro h
    rw [toBytes, toBytes, h]

theorem ofBytes_toBytes (id : NodeId) : ofBytes id.toBytes = ofRaw id.toRaw := by
  rw [ofBytes, toNat_toBytes]
  exact congrArg ofRaw (UInt64.ofNat_toNat)

/-- An id that no other id shares its bits with: a mark, or a number up to the greatest one. -/
def InRange : NodeId → Prop
  | .real v => v ≤ maxValue
  | _ => True

instance : DecidablePred InRange
  | .real v => inferInstanceAs (Decidable (v ≤ maxValue))
  | .missing => isTrue trivial
  | .any => isTrue trivial

theorem ofRaw_toRaw {id : NodeId} (h : id.InRange) : ofRaw id.toRaw = .ok id := by
  cases id with
  | real v =>
    have hm : v ≠ rawMissing := by rintro rfl; exact absurd h (by decide)
    have ha : v ≠ rawAny := by rintro rfl; exact absurd h (by decide)
    have hv : v ≤ maxValue := h
    simp [toRaw, ofRaw, hm, ha, hv]
  | missing => rfl
  | any => rfl

/-- The id that the bits of an id stand for, if there is one. -/
def readBack? (id : NodeId) : Option NodeId := (ofRaw id.toRaw).toOption

theorem toRaw_of_readBack? {id id' : NodeId} (h : id.readBack? = some id') :
    id'.toRaw = id.toRaw := by
  rw [readBack?, ofRaw] at h
  split at h
  next he => cases h; exact he.symm
  next =>
    split at h
    next he => cases h; exact he.symm
    next =>
      split at h
      next => cases h; rfl
      next => cases h

/-- A number beyond the greatest one reads back as a mark or not at all. -/
theorem readBack?_eq_self_iff (id : NodeId) : id.readBack? = some id ↔ id.InRange := by
  constructor
  · intro h
    cases id with
    | real v =>
      rw [readBack?, ofRaw] at h
      split at h
      next => cases h
      next =>
        split at h
        next => cases h
        next =>
          split at h
          next hle => exact hle
          next => cases h
    | missing => trivial
    | any => trivial
  · intro h
    rw [readBack?, ofRaw_toRaw h]
    rfl

theorem toRaw_injective_of_isReal {a b : NodeId} (ha : a.isReal) (hb : b.isReal)
    (h : a.toRaw = b.toRaw) : a = b := by
  cases a with
  | real v =>
    cases b with
    | real w => exact congrArg real h
    | missing => cases hb
    | any => cases hb
  | missing => cases ha
  | any => cases ha

theorem toRaw_injective_right {a b : NodeId} (hb : b.isReal) (hr : b.InRange)
    (h : a.toRaw = b.toRaw) : a = b := by
  cases b with
  | real w =>
    cases a with
    | real v => exact congrArg real h
    | missing =>
      obtain rfl : rawMissing = w := h
      exact absurd hr (by decide)
    | any =>
      obtain rfl : rawAny = w := h
      exact absurd hr (by decide)
  | missing => cases hb
  | any => cases hb

end TripleStore.NodeId
