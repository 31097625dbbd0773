import CPractice.Lib.CInt
import Mathlib.Data.List.Basic

/-! The three functions that decode a JPEG image into one buffer. The sizes are computed
in `int` and the row offsets in `unsigned`, both of 32 bits. They leave the defaults of
`jpeg_read_header`, so nothing is scaled and the output fields are the image's own. -/

namespace CPractice

open CInt

def JPEG_MAX_DIMENSION : Nat := 65500

structure JpegImage where
  image_width : Nat
  image_height : Nat
  num_components : Nat
  width_range : 1 ≤ image_width ∧ image_width ≤ JPEG_MAX_DIMENSION
  height_range : 1 ≤ image_height ∧ image_height ≤ JPEG_MAX_DIMENSION
  components_range : 1 ≤ num_components ∧ num_components ≤ 4

/-- The bytes that one call of `jpeg_read_scanlines` writes. -/
structure Row where
  offset : Nat
  length : Nat
  deriving DecidableEq, Repr

structure Decoded where
  dstLen : Nat
  rows : List Row
  deriving DecidableEq, Repr

/-- `new BYTE[n]` throws for a size that no object can have. -/
def newBytes (n : Nat) : Option Nat := if n < 2 ^ 63 then some n else none

theorem newBytes_eq_some {n dstLen : Nat} : newBytes n = some dstLen ↔ n < 2 ^ 63 ∧ n = dstLen := by
  rw [newBytes, Option.ite_none_right_eq_some, Option.some.injEq]

def scanlineLoop (cinfo : JpegImage) (row_stride : Int) : Nat → Nat → List Row
  | 0, _ => []
  | fuel + 1, output_scanline =>
    if output_scanline < cinfo.image_height then
      ⟨toUnsigned (output_scanline * row_stride), cinfo.image_width * cinfo.num_components⟩ ::
        scanlineLoop cinfo row_stride fuel (output_scanline + 1)
    else []

def decodeInto (cinfo : JpegImage) (row_stride : Int) : Option Decoded := do
  let width := toInt cinfo.image_width
  let height := toInt cinfo.image_height
  let depth := toInt cinfo.num_components
  let dstLen ← newBytes (toSize (toInt (toInt (width * height) * depth)))
  return { dstLen, rows := scanlineLoop cinfo row_stride cinfo.image_height 0 }

def DeompressJPEG (cinfo : JpegImage) : Option Decoded :=
  decodeInto cinfo (toInt (toUnsigned (cinfo.image_width * cinfo.num_components)))

def decompress_jpeg_from_file (cinfo : JpegImage) : Option Decoded :=
  decodeInto cinfo (toInt (toUnsigned (cinfo.image_width * cinfo.num_components)))

def decompress_jpeg_from_mem (cinfo : JpegImage) : Option Decoded :=
  decodeInto cinfo (toInt (toUnsigned (cinfo.image_width * cinfo.num_components)))

def JpegImage.row_stride (image : JpegImage) : Nat := image.image_width * image.num_components

/-- There is a buffer, every row is at its place in it, and no two rows share a byte. -/
def RowsFit (image : JpegImage) (out : Option Decoded) : Prop :=
  ∃ d, out = some d ∧ d.rows.length = image.image_height ∧
    (∀ y < image.image_height, d.rows[y]? = some ⟨y * image.row_stride, image.row_stride⟩ ∧
      (y + 1) * image.row_stride ≤ d.dstLen) ∧
    d.rows.Pairwise fun r r' => r.offset + r.length ≤ r'.offset ∨ r'.offset + r'.length ≤ r.offset

theorem decodeInto_eq_map (cinfo : JpegImage) (row_stride : Int) :
    decodeInto cinfo row_stride =
      (newBytes (toSize (toInt (toInt (toInt cinfo.image_width * toInt cinfo.image_height) *
        toInt cinfo.num_components)))).map fun dstLen =>
          ⟨dstLen, scanlineLoop cinfo row_stride cinfo.image_height 0⟩ := by
  rw [decodeInto]
  cases newBytes _ with
  | none => rfl
  | some dstLen => rfl

theorem dstLen_of_decodeInto {cinfo : JpegImage} {row_stride : Int} {d : Decoded}
    (h : decodeInto cinfo row_stride = some d) :
    toSize (toInt (toInt (toInt cinfo.image_width * toInt cinfo.image_height) * toInt cinfo.num_components)) <
        2 ^ 63 ∧
      d.dstLen = toSize (toInt (toInt (toInt cinfo.image_width * toInt cinfo.image_height) *
        toInt cinfo.num_components)) := by
  rw [decodeInto_eq_map] at h
  obtain ⟨dstLen, hnew, rfl⟩ := Option.map_eq_some_iff.mp h
  exact ⟨(newBytes_eq_some.mp hnew).1, (newBytes_eq_some.mp hnew).2.symm⟩

theorem scanlineLoop_eq (cinfo : JpegImage) (row_stride : Int) {fuel y : Nat} (h : y + fuel = cinfo.image_height) :
    scanlineLoop cinfo row_stride fuel y = (List.range' y fuel).map fun y : Nat =>
      ⟨toUnsigned (y * row_stride), cinfo.image_width * cinfo.num_components⟩ := by
  induction fuel generalizing y with
  | zero => rfl
  | succ fuel ih =>
    rw [scanlineLoop, if_pos (by omega), ih (by omega), List.range'_succ, List.map_cons]

section Image

variable (image : JpegImage)

theorem JpegImage.row_stride_lt : image.row_stride < 2 ^ 31 := by
  have hw := image.width_range
  have hc := image.components_range
  have hmax : JPEG_MAX_DIMENSION = 65500 := rfl
  calc image.image_width * image.num_components ≤ 65500 * 4 := Nat.mul_le_mul (by omega) hc.2
    _ < 2 ^ 31 := by decide

theorem stride_eq : toInt (toUnsigned (image.image_width * image.num_components)) = image.row_stride := by
  have hlt := image.row_stride_lt
  have hcast : (image.image_width * image.num_components : Int) = image.row_stride := by
    rw [JpegImage.row_stride, Int.natCast_mul]
  rw [toUnsigned_eq_natCast hcast (by omega), toInt_eq_natCast rfl hlt]

theorem dstLen_eq :
    toSize (toInt (toInt (toInt image.image_width * toInt image.image_height) * toInt image.num_components)) =
      toSize (toInt (image.image_height * image.row_stride : Nat)) := by
  have hw := image.width_range
  have hh := image.height_range
  have hc := image.components_range
  have hmax : JPEG_MAX_DIMENSION = 65500 := rfl
  rw [toInt_toInt_mul, toInt_eq_natCast rfl (by omega), toInt_eq_natCast rfl (by omega), toInt_eq_natCast rfl (by omega)]
  congr 2
  simp only [JpegImage.row_stride]
  push_cast
  rw [Int.mul_comm (image.image_width : Int), Int.mul_assoc]

theorem decodeInto_eq :
    decodeInto image image.row_stride =
      (newBytes (toSize (toInt (image.image_height * image.row_stride : Nat)))).map fun dstLen =>
        ⟨dstLen, (List.range image.image_height).map fun y : Nat =>
          ⟨toUnsigned (y * image.row_stride : Nat), image.row_stride⟩⟩ := by
  have hrows := scanlineLoop_eq image image.row_stride (Nat.zero_add image.image_height)
  rw [← List.range_eq_range'] at hrows
  simp only [← Int.natCast_mul] at hrows
  rw [decodeInto_eq_map, ← dstLen_eq, hrows]
  rfl

theorem rowsFit_of_lt (h : image.image_height * image.row_stride < 2 ^ 31) :
    RowsFit image (decodeInto image image.row_stride) := by
  have hsize : toSize (toInt (image.image_height * image.row_stride : Nat)) = image.image_height * image.row_stride := by
    rw [toInt_eq_natCast rfl h, toSize_eq_natCast rfl (by omega)]
  have hrow : ∀ y < image.image_height, (y + 1) * image.row_stride ≤ image.image_height * image.row_stride :=
    fun y hy => Nat.mul_le_mul_right _ hy
  have hoffset : ∀ y < image.image_height, toUnsigned (y * image.row_stride : Nat) = y * image.row_stride := by
    intro y hy
    have hle := hrow y hy
    rw [Nat.add_mul] at hle
    exact toUnsigned_eq_natCast rfl (by omega)
  rw [decodeInto_eq, hsize, newBytes, if_pos (by omega)]
  refine ⟨_, rfl, by simp, ?_, ?_⟩
  · intro y hy
    refine ⟨?_, hrow y hy⟩
    dsimp only
    rw [List.getElem?_map, List.getElem?_range hy, Option.map_some, hoffset y hy]
  · refine List.pairwise_map.mpr (List.pairwise_lt_range.imp_of_mem ?_)
    intro y y' hy hy' hlt
    left
    rw [hoffset y (List.mem_range.mp hy), hoffset y' (List.mem_range.mp hy')]
    have hnext := Nat.mul_le_mul_right image.row_stride hlt
    rwa [Nat.succ_mul] at hnext

theorem rowsFit_iff :
    RowsFit image (decodeInto image image.row_stride) ↔
      image.image_height * image.row_stride < 2 ^ 31 := by
  refine ⟨?_, rowsFit_of_lt image⟩
  rintro ⟨d, hd, -, hrows, -⟩
  obtain ⟨h, hh⟩ := Nat.exists_eq_add_of_le image.height_range.1
  have hlast := (hrows h (by omega)).2
  rw [Nat.add_comm h, ← hh] at hlast
  obtain ⟨hlt, hlen⟩ := dstLen_of_decodeInto hd
  have hwrap := toSize_toInt_lt hlt
  rw [← hlen] at hwrap
  exact Nat.lt_of_le_of_lt hlast hwrap

/-- The rows fit if the image has less than 2^31 bytes, and only then. -/
theorem decoded_rows_fit_iff (image : JpegImage) :
    (RowsFit image (DeompressJPEG image) ↔
      image.image_width * image.image_height * image.num_components < 2 ^ 31) ∧
    (RowsFit image (decompress_jpeg_from_file image) ↔
      image.image_width * image.image_height * image.num_components < 2 ^ 31) ∧
    (RowsFit image (decompress_jpeg_from_mem image) ↔
      image.image_width * image.image_height * image.num_components < 2 ^ 31) := by
  have hsize : image.image_width * image.image_height * image.num_components =
      image.image_height * image.row_stride := by
    rw [JpegImage.row_stride, Nat.mul_comm image.image_width, Nat.mul_assoc]
  have hfit := rowsFit_iff image
  rw [← stride_eq image, ← hsize] at hfit
  exact ⟨hfit, hfit, hfit⟩

end Image

def largeImage : JpegImage := ⟨40000, 40000, 3, by decide, by decide, by decide⟩

/-- The buffer is too short for the row in the middle of which it ends. -/
theorem largeImage_outside : ¬ ∀ image : JpegImage, RowsFit image (DeompressJPEG image) := by
  intro hall
  obtain ⟨d, hd, -, hrows, -⟩ := hall largeImage
  have hrow := (hrows 4208 (by decide)).2
  rw [(dstLen_of_decodeInto hd).2] at hrow
  exact absurd hrow (by decide)

end CPractice
