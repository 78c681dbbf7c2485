import Mathlib.Data.List.Basic
import Mathlib.Logic.Function.Iterate
import ThreadedCode.Dictionary.Bucket

/-!
The bucket of a name in exact numbers. The hash wraps, shifts bits out and extends signs in words of
thirty-two bits. It comes to a chain of steps on natural numbers, and the chain shows which names
share a bucket.
-/
namespace ThreadedCode
namespace Dictionary

/-- A byte with its sign, modulo 2 ^ 32: from 128 on it stands for 256 less than it says. -/
def signed (byte : Nat) : Nat := if byte < 128 then byte else byte + 4294967296 - 256

/-- What the step for a byte takes in, in a name that begins with `first`. -/
def intake (mode : Mode) (first byte : Nat) : Nat :=
  match mode with
  | .compatible => signed first
  | .strict => byte

/-- One step on exact numbers: 33 times as much modulo 2 ^ 32, the exclusive or of that with what is
taken in, and the remainder modulo 2 ^ 31 - 1. -/
def exactStep (x c : Nat) : Nat := ((33 * x) % 4294967296 ^^^ c) % 2147483647

/-- The hash as a chain of exact steps, one for each byte. -/
def exactHash (mode : Mode) (name : List UInt8) : Nat :=
  name.foldl (fun x b => exactStep x (intake mode (name.headD 0).toNat b.toNat)) 5381

theorem toNat_hashStep (h c : UInt32) : (hashStep h c).toNat = exactStep h.toNat c.toNat := by
  have hshift : (h <<< 5).toNat = h.toNat * 32 % 4294967296 := by
    rw [UInt32.toNat_shiftLeft, Nat.shiftLeft_eq]
    rfl
  -- the bits that the shift drops are a multiple of the modulus, so the sum is still the product
  have hproduct : (h <<< 5 + h).toNat = 33 * h.toNat % 4294967296 := by
    rw [UInt32.toNat_add, hshift]
    omega
  rw [hashStep, UInt32.toNat_mod, UInt32.toNat_xor, hproduct]
  rfl

theorem toNat_signExtended (b : UInt8) : (signExtended b).toNat = signed b.toNat := by
  have hbits : (signExtended b).toBitVec = b.toBitVec.signExtend 32 := by
    rw [signExtended, Int32.toBitVec_toUInt32, Int8.toBitVec_toInt32, UInt8.toBitVec_toInt8]
  have hlt := b.toNat_lt
  rw [← UInt32.toNat_toBitVec, hbits, BitVec.toNat_signExtend, BitVec.msb_eq_decide,
    BitVec.toNat_setWidth, UInt8.toNat_toBitVec, signed]
  simp only [decide_eq_true_eq]
  split
  · rw [if_neg (by omega)]
    omega
  · rw [if_pos (by omega)]
    omega

/-- What the hash folds is what the exact steps take in. -/
theorem map_toNat_folded (mode : Mode) (name : List UInt8) :
    (folded mode name).map UInt32.toNat =
      name.map fun b => intake mode (name.headD 0).toNat b.toNat := by
  cases mode with
  | compatible =>
    rw [folded, List.map_map]
    exact List.map_congr_left fun _ _ => toNat_signExtended _
  | strict =>
    rw [folded, List.map_map]
    exact List.map_congr_left fun b _ => UInt8.toNat_toUInt32 b

theorem toNat_hash (mode : Mode) (name : List UInt8) :
    (hash mode name).toNat = exactHash mode name := by
  calc (hash mode name).toNat
      = ((folded mode name).map UInt32.toNat).foldl exactStep 5381 := by
        rw [List.foldl_map]
        exact (List.foldl_hom UInt32.toNat fun h c => (toNat_hashStep h c).symm).symm
    _ = (name.map fun b => intake mode (name.headD 0).toNat b.toNat).foldl exactStep 5381 := by
        rw [map_toNat_folded]
    _ = exactHash mode name := List.foldl_map

theorem val_bucketOf (mode : Mode) (name : List UInt8) :
    (bucketOf mode name).val = exactHash mode name % 128 :=
  congrArg (· % 128) (toNat_hash mode name)

theorem bucketOf_eq {mode other : Mode} {name query : List UInt8}
    (h : exactHash mode name = exactHash other query) : bucketOf mode name = bucketOf other query :=
  Fin.ext (by rw [val_bucketOf, val_bucketOf, h])

/-- In compatible mode one step is repeated as often as the name is long. -/
theorem exactHash_compatible (name : List UInt8) :
    exactHash .compatible name =
      (fun x => exactStep x (signed (name.headD 0).toNat))^[name.length] 5381 :=
  List.foldl_const (fun x => exactStep x (signed (name.headD 0).toNat)) 5381 name

theorem exactHash_congr {name other : List UInt8} (hlength : name.length = other.length)
    (hfirst : name.head? = other.head?) :
    exactHash .compatible name = exactHash .compatible other := by
  have hbyte : name.headD 0 = other.headD 0 := by
    rw [List.headD_eq_head?_getD, hfirst, ← List.headD_eq_head?_getD]
  rw [exactHash_compatible, exactHash_compatible, hlength, hbyte]

/-- Of a name that is one byte again and again, below 128, both modes take the same in. -/
theorem exactHash_repeated {name : List UInt8} {b : UInt8} (hname : ∀ c ∈ name, c = b)
    (hb : b.toNat < 128) : exactHash .compatible name = exactHash .strict name := by
  cases name with
  | nil => rfl
  | cons first rest =>
    -- the first byte is one of the name's own, so it has no sign either
    have hfirst : first = b := hname first List.mem_cons_self
    have hsigned : signed first.toNat = b.toNat := by rw [hfirst, signed, if_pos hb]
    refine List.foldl_ext _ _ _ fun x c hc => ?_
    change exactStep x (signed first.toNat) = exactStep x c.toNat
    rw [hsigned, hname c hc]

/-- The hash of a name in words is its hash in exact numbers, and the bucket its remainder. So names
as long as each other that begin alike share a bucket in compatible mode, and a name of one byte below
128 again and again, or of none, lies in the same bucket in both modes. -/
theorem hash_exact :
    (∀ mode name, (hash mode name).toNat = exactHash mode name ∧
      (bucketOf mode name).val = exactHash mode name % 128) ∧
    (∀ name other : List UInt8, name.length = other.length → name.head? = other.head? →
      bucketOf .compatible name = bucketOf .compatible other) ∧
    ∀ (name : List UInt8) (b : UInt8), (∀ c ∈ name, c = b) → b.toNat < 128 →
      bucketOf .compatible name = bucketOf .strict name :=
  ⟨fun mode name => ⟨toNat_hash mode name, val_bucketOf mode name⟩,
    fun _ _ hlength hfirst => bucketOf_eq (exactHash_congr hlength hfirst),
    fun _ _ hname hb => bucketOf_eq (exactHash_repeated hname hb)⟩

/-- The names é, foo, fzz and fff. -/
theorem hash_exact_of_fourNames :
    let accented : List UInt8 := [0xC3, 0xA9]
    let foo : List UInt8 := [0x66, 0x6F, 0x6F]
    let fzz : List UInt8 := [0x66, 0x7A, 0x7A]
    let fff : List UInt8 := List.replicate 3 0x66
    (bucketOf .compatible accented).val = exactHash .compatible accented % 128 ∧
    exactHash .compatible accented % 128 = 5 ∧
    foo.length = fzz.length ∧ foo.head? = fzz.head? ∧
    bucketOf .compatible foo = bucketOf .compatible fzz ∧
    (∀ c ∈ fff, c = 0x66) ∧ (0x66 : UInt8).toNat < 128 ∧
    bucketOf .compatible fff = bucketOf .strict fff ∧ bucketOf .strict foo ≠ bucketOf .strict fzz := by
  intro accented foo fzz fff
  obtain ⟨hexact, hshared, hrepeated⟩ := hash_exact
  have hall : ∀ c ∈ fff, c = 0x66 := fun _ hc => List.eq_of_mem_replicate hc
  exact ⟨(hexact .compatible accented).2, by decide, rfl, rfl, hshared foo fzz rfl rfl, hall, by decide,
    hrepeated fff 0x66 hall (by decide), by decide⟩

end Dictionary
end ThreadedCode
