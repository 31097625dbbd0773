import CPractice.Jpeg
import CPractice.Lib.Block
import CPractice.Lib.Chunks

/-! `read_jpeg_file`, which copies the decoded rows into one block and measures it with
`strlen`, and the loops that pass the rows of a buffer to the compressor. -/

namespace CPractice

namespace JpegRows

open CMem CInt

variable {image : JpegImage}

structure Scan (image : JpegImage) where
  row : Nat → List UInt8
  row_length : ∀ y, (row y).length = image.row_stride

def copyLoop (scan : Scan image) (row_width : Nat) : Nat → Nat → Nat → List UInt8 → Except Fault (List UInt8)
  | 0, _, _, output_buffer => .ok output_buffer
  | fuel + 1, output_scanline, rowdata, output_buffer =>
    if output_scanline < image.image_height then do
      let output_buffer ← memcpy output_buffer rowdata (scan.row output_scanline) row_width
      copyLoop scan row_width fuel (output_scanline + 1) (rowdata + row_width) output_buffer
    else .ok output_buffer

/-- The last message prints the length of the pixels as a string. -/
def read_jpeg_file (scan : Scan image) : Except Fault (List UInt8) := do
  let row_width := toInt (toUnsigned (image.image_width * image.num_components))
  let size := toUnsigned (row_width * image.image_height)
  let output_buffer ← copyLoop scan (toSize row_width) image.image_height 0 0 (List.replicate size 0)
  let _ ← strlen output_buffer
  return output_buffer

def readRow (src : List UInt8) (offset n : Nat) : Except Fault (List UInt8) :=
  if offset + n ≤ src.length then .ok ((src.drop offset).take n) else .error .outOfBounds

def writeLoop (image : JpegImage) (src : List UInt8) (row_stride : Int) :
    Nat → Nat → Except Fault (List (List UInt8))
  | 0, _ => .ok []
  | fuel + 1, next_scanline =>
    if next_scanline < image.image_height then do
      let row ← readRow src (toUnsigned (next_scanline * row_stride)) image.row_stride
      let rows ← writeLoop image src row_stride fuel (next_scanline + 1)
      return row :: rows
    else .ok []

/-- What the compressing functions use of libjpeg: the constant, whether it compresses this number of components
in this colour space, and the components in the file that `jpeg_set_defaults` chooses for them. -/
structure Libjpeg where
  JCS_RGB : Int
  accepts : Int → Nat → Bool
  num_components : Int → Nat → Nat

structure Libjpeg.Lawful (lib : Libjpeg) : Prop where
  accepts_rgb : ∀ components, lib.accepts lib.JCS_RGB components = true ↔ components = 3
  num_components_rgb : lib.num_components lib.JCS_RGB 3 = 3

variable (lib : Libjpeg)

/-- The standard error handler calls `exit`; otherwise the rows that the compressor gets are left. -/
def start_compress (image : JpegImage) (color_space : Int) (src : List UInt8) (row_stride : Int) :
    Except Fault (Option (List (List UInt8))) :=
  if lib.accepts color_space image.num_components = false then .ok none
  else some <$> writeLoop image src row_stride image.image_height 0

def compress_jpeg_to_file (outfile : Bool) (image : JpegImage) (color_space : Int) (src : List UInt8) :
    Except Fault (Option (List (List UInt8))) :=
  if outfile = false then .ok none
  else
    let row_stride := toInt (toUnsigned (image.image_width * image.num_components))
    start_compress lib image color_space src row_stride

def compress_jpeg_to_mem (image : JpegImage) (color_space : Int) (src : List UInt8) :
    Except Fault (Option (List (List UInt8))) :=
  let row_stride := toInt (toUnsigned (image.image_width * image.num_components))
  start_compress lib image color_space src row_stride

def CompressJPEG (image : JpegImage) (src : List UInt8) : Except Fault (Option (List (List UInt8))) :=
  let num_components := lib.num_components lib.JCS_RGB image.num_components
  let row_stride := toInt (toUnsigned (image.image_width * num_components))
  start_compress lib image lib.JCS_RGB src row_stride

section Read

variable (scan : Scan image)

def Scan.pixels : List UInt8 := ((List.range image.image_height).map scan.row).flatten

theorem strlen_error {buf : List UInt8} (h : (0 : UInt8) ∉ buf) : strlen buf = .error .outOfBounds := by
  induction buf with
  | nil => rfl
  | cons b buf ih =>
    rw [List.mem_cons, not_or] at h
    rw [strlen, if_neg (Ne.symm h.1), ih h.2]
    rfl

theorem copyLoop_ok {fuel y : Nat} (hy : y + fuel = image.image_height) {block : List UInt8}
    (hblock : block.length = image.image_height * image.row_stride) :
    copyLoop scan image.row_stride fuel y (y * image.row_stride) block =
      .ok (block.take (y * image.row_stride) ++ ((List.range' y fuel).map scan.row).flatten) := by
  induction fuel generalizing y block with
  | zero =>
    rw [Nat.add_zero] at hy
    rw [copyLoop, hy, ← hblock, List.take_length]
    simp
  | succ fuel ih =>
    have hnext : y * image.row_stride + image.row_stride = (y + 1) * image.row_stride := (Nat.succ_mul _ _).symm
    have hroom : (y + 1) * image.row_stride ≤ block.length := by
      rw [hblock]
      exact Nat.mul_le_mul_right _ (by omega)
    have hcopy : memcpy block (y * image.row_stride) (scan.row y) image.row_stride =
        .ok (block.take (y * image.row_stride) ++ scan.row y ++ block.drop ((y + 1) * image.row_stride)) := by
      rw [memcpy_ok (scan.row_length y).ge (by omega), ← scan.row_length y, List.take_length, scan.row_length y, hnext]
    have hlen := memcpy_length hcopy
    have hpre : (block.take (y * image.row_stride) ++ scan.row y).length = (y + 1) * image.row_stride := by
      rw [List.length_append, List.length_take, scan.row_length]
      omega
    rw [copyLoop, if_pos (by omega), hcopy, ok_bind, hnext, ih (by omega) (hlen.trans hblock), List.take_left' hpre,
      List.range'_succ, List.map_cons, List.flatten_cons, List.append_assoc]

theorem copyLoop_error {fuel y : Nat} (hy : y + fuel = image.image_height) (hlt : y < image.image_height)
    {block : List UInt8} (hblock : block.length < image.image_height * image.row_stride) :
    copyLoop scan image.row_stride fuel y (y * image.row_stride) block = .error .outOfBounds := by
  induction fuel generalizing y block with
  | zero => omega
  | succ fuel ih =>
    have hnext : y * image.row_stride + image.row_stride = (y + 1) * image.row_stride := (Nat.succ_mul _ _).symm
    rw [copyLoop, if_pos hlt]
    by_cases hroom : (y + 1) * image.row_stride ≤ block.length
    · have hmore : y + 1 < image.image_height := by
        by_contra hlast
        have hend : y + 1 = image.image_height := by omega
        rw [hend] at hroom
        omega
      obtain ⟨block', hcopy⟩ : ∃ block',
          memcpy block (y * image.row_stride) (scan.row y) image.row_stride = .ok block' :=
        ⟨_, memcpy_ok (scan.row_length y).ge (by omega)⟩
      rw [hcopy, ok_bind, hnext]
      exact ih (by omega) hmore (by rw [memcpy_length hcopy]; exact hblock)
    · rw [memcpy, if_neg (by omega), error_bind]

/-- The function works if the image has less than 2^32 bytes and one of them is zero, and only then.
Otherwise a row is written behind the block, or `strlen` reads behind it. -/
theorem read_jpeg_file_exact : read_jpeg_file scan =
    if image.image_height * image.row_stride < 2 ^ 32 ∧ 0 ∈ scan.pixels then .ok scan.pixels
    else .error .outOfBounds := by
  have hstride := image.row_stride_lt
  have hsize : toUnsigned (image.row_stride * image.image_height) = image.image_height * image.row_stride % 2 ^ 32 := by
    rw [toUnsigned, Int.mul_comm, ← Int.natCast_mul]
    omega
  simp only [read_jpeg_file]
  rw [stride_eq, toSize_eq_natCast rfl (by omega), hsize]
  by_cases hfits : image.image_height * image.row_stride < 2 ^ 32
  · have hcopy : copyLoop scan image.row_stride image.image_height 0 0
        (List.replicate (image.image_height * image.row_stride) 0) = .ok scan.pixels := by
      have hloop := @copyLoop_ok image scan image.image_height 0 (Nat.zero_add _)
        (List.replicate (image.image_height * image.row_stride) 0) List.length_replicate
      rwa [Nat.zero_mul, List.take_zero, List.nil_append, ← List.range_eq_range'] at hloop
    rw [Nat.mod_eq_of_lt hfits, hcopy, ok_bind]
    by_cases hmem : 0 ∈ scan.pixels
    · rw [if_pos ⟨hfits, hmem⟩, strlen_ok hmem]
      rfl
    · rw [if_neg (fun h => hmem h.2), strlen_error hmem]
      rfl
  · have hmod := Nat.mod_lt (image.image_height * image.row_stride) (show 0 < 2 ^ 32 by decide)
    have hcopy := @copyLoop_error image scan image.image_height 0 (Nat.zero_add _) image.height_range.1
      (List.replicate (image.image_height * image.row_stride % 2 ^ 32) 0) (by rw [List.length_replicate]; omega)
    rw [Nat.zero_mul] at hcopy
    rw [hcopy, error_bind, if_neg (fun h => hfits h.1)]

end Read

section Write

variable (image)

def rowAt (src : List UInt8) (y : Nat) : List UInt8 :=
  (src.drop (y * image.row_stride % 2 ^ 32)).take image.row_stride

/-- Of a buffer with all the rows, each row is passed once and in order. -/
def PassesRows (compress : List UInt8 → Except Fault (Option (List (List UInt8)))) : Prop :=
  ∀ src : List UInt8, src.length = image.image_height * image.row_stride →
    ∃ rows, compress src = .ok (some rows) ∧ rows.length = image.image_height ∧ rows.flatten = src

theorem writeLoop_ok {src : List UInt8} (hsrc : src.length = image.image_height * image.row_stride) {fuel y : Nat}
    (hy : y + fuel = image.image_height) :
    writeLoop image src image.row_stride fuel y = .ok ((List.range' y fuel).map (rowAt image src)) := by
  induction fuel generalizing y with
  | zero => rfl
  | succ fuel ih =>
    have hoffset : toUnsigned (y * image.row_stride) = y * image.row_stride % 2 ^ 32 := by
      rw [toUnsigned, ← Int.natCast_mul]
      omega
    have hinside : y * image.row_stride % 2 ^ 32 + image.row_stride ≤ src.length := by
      have hmod := Nat.mod_le (y * image.row_stride) (2 ^ 32)
      have hrow : (y + 1) * image.row_stride ≤ image.image_height * image.row_stride :=
        Nat.mul_le_mul_right _ (by omega)
      rw [Nat.succ_mul] at hrow
      omega
    rw [writeLoop, if_pos (by omega), hoffset, readRow, if_pos hinside, ok_bind, ih (by omega), ok_bind,
      List.range'_succ, List.map_cons]
    rfl

theorem writeLoop_rows {src : List UInt8} (hsrc : src.length = image.image_height * image.row_stride) :
    writeLoop image src image.row_stride image.image_height 0 =
      .ok ((List.range image.image_height).map (rowAt image src)) := by
  rw [writeLoop_ok image hsrc (Nat.zero_add _), ← List.range_eq_range']

theorem flatten_rowAt {src : List UInt8} (hsrc : src.length = image.image_height * image.row_stride)
    (h : (image.image_height - 1) * image.row_stride < 2 ^ 32) :
    ((List.range image.image_height).map (rowAt image src)).flatten = src := by
  have hrows : (List.range image.image_height).map (rowAt image src) =
      (List.range image.image_height).map fun y => (src.drop (y * image.row_stride)).take image.row_stride := by
    apply List.map_congr_left
    intro y hy
    have hlt := List.mem_range.mp hy
    have hle : y * image.row_stride ≤ (image.image_height - 1) * image.row_stride :=
      Nat.mul_le_mul_right _ (by omega)
    rw [rowAt, Nat.mod_eq_of_lt (by omega)]
  rw [hrows, Chunks.flatten_rows hsrc]

theorem exists_flatten_rowAt_ne (h : 2 ^ 32 ≤ (image.image_height - 1) * image.row_stride) :
    ∃ src : List UInt8, src.length = image.image_height * image.row_stride ∧
      ((List.range image.image_height).map (rowAt image src)).flatten ≠ src := by
  have hh := image.height_range.1
  have hpos : 0 < image.row_stride := Nat.mul_pos image.width_range.1 image.components_range.1
  have hend : (image.image_height - 1) * image.row_stride + image.row_stride =
      image.image_height * image.row_stride := by
    rw [← Nat.succ_mul, Nat.succ_eq_add_one, Nat.sub_add_cancel hh]
  generalize hlast : image.image_height - 1 = last at h hend
  let src : List UInt8 := (List.replicate (image.image_height * image.row_stride) 0).set (last * image.row_stride) 1
  have hsrc : src.length = image.image_height * image.row_stride := by
    rw [List.length_set, List.length_replicate]
  refine ⟨src, hsrc, fun hflat => ?_⟩
  have hmod : last * image.row_stride % 2 ^ 32 < 2 ^ 32 := Nat.mod_lt _ (by decide)
  have hone : src[last * image.row_stride]? = some 1 := by
    rw [List.getElem?_set_self (by rw [List.length_replicate]; omega)]
  have hzero : src[last * image.row_stride % 2 ^ 32]? = some 0 := by
    rw [List.getElem?_set_ne (by omega), List.getElem?_replicate_of_lt (by omega)]
  have hwidth : ∀ row ∈ (List.range image.image_height).map (rowAt image src), row.length = image.row_stride := by
    rw [List.forall_mem_map]
    intro y hy
    have hle := Nat.mod_le (y * image.row_stride) (2 ^ 32)
    have hrow : (y + 1) * image.row_stride ≤ image.image_height * image.row_stride :=
      Nat.mul_le_mul_right _ (List.mem_range.mp hy)
    rw [Nat.succ_mul] at hrow
    rw [rowAt, List.length_take, List.length_drop, hsrc]
    omega
  have hbyte := Chunks.getElem?_flatten_of_width hwidth last hpos
  rw [hflat, Nat.zero_add, hone, List.getElem?_map, List.getElem?_range (by omega), Option.map_some,
    Option.bind_some, rowAt, List.getElem?_take_of_lt hpos, List.getElem?_drop, Nat.add_zero, hzero] at hbyte
  cases hbyte

theorem passesRows_iff {compress : List UInt8 → Except Fault (Option (List (List UInt8)))} {p : Prop} [Decidable p]
    (hcompress : ∀ src : List UInt8, src.length = image.image_height * image.row_stride →
      compress src = .ok (if p then some ((List.range image.image_height).map (rowAt image src)) else none)) :
    PassesRows image compress ↔ p ∧ (image.image_height - 1) * image.row_stride < 2 ^ 32 := by
  constructor
  · intro hpass
    have hp : p := by
      have hsrc : (List.replicate (image.image_height * image.row_stride) (0 : UInt8)).length =
        image.image_height * image.row_stride := List.length_replicate
      obtain ⟨rows, hrows, -⟩ := hpass _ hsrc
      by_contra hp
      rw [hcompress _ hsrc, if_neg hp] at hrows
      cases hrows
    refine ⟨hp, ?_⟩
    by_contra hlarge
    obtain ⟨src, hsrc, hne⟩ := exists_flatten_rowAt_ne image (not_lt.mp hlarge)
    obtain ⟨rows, hrows, -, hflat⟩ := hpass src hsrc
    rw [hcompress src hsrc, if_pos hp] at hrows
    cases hrows
    exact hne hflat
  · rintro ⟨hp, hlt⟩ src hsrc
    exact ⟨_, by rw [hcompress src hsrc, if_pos hp], by simp, flatten_rowAt image hsrc hlt⟩

variable {lib}

theorem start_compress_ok {color_space : Int} {src : List UInt8}
    (hsrc : src.length = image.image_height * image.row_stride) :
    start_compress lib image color_space src image.row_stride =
      .ok (if lib.accepts color_space image.num_components = true then
        some ((List.range image.image_height).map (rowAt image src)) else none) := by
  rw [start_compress, writeLoop_rows image hsrc]
  cases lib.accepts color_space image.num_components with
  | false => rfl
  | true => rfl

theorem compress_jpeg_to_file_ok {outfile : Bool} {color_space : Int} {src : List UInt8}
    (hsrc : src.length = image.image_height * image.row_stride) :
    compress_jpeg_to_file lib outfile image color_space src =
      .ok (if outfile = true ∧ lib.accepts color_space image.num_components = true then
        some ((List.range image.image_height).map (rowAt image src)) else none) := by
  rw [compress_jpeg_to_file, stride_eq, start_compress_ok image hsrc]
  cases outfile with
  | false => rfl
  | true => simp

theorem compress_jpeg_to_mem_ok {color_space : Int} {src : List UInt8}
    (hsrc : src.length = image.image_height * image.row_stride) :
    compress_jpeg_to_mem lib image color_space src =
      .ok (if lib.accepts color_space image.num_components = true then
        some ((List.range image.image_height).map (rowAt image src)) else none) := by
  rw [compress_jpeg_to_mem, stride_eq, start_compress_ok image hsrc]

theorem CompressJPEG_ok (hlib : lib.Lawful) {src : List UInt8}
    (hsrc : src.length = image.image_height * image.row_stride) :
    CompressJPEG lib image src =
      .ok (if image.num_components = 3 then some ((List.range image.image_height).map (rowAt image src))
        else none) := by
  rw [CompressJPEG]
  by_cases hthree : image.num_components = 3
  · have hnum : lib.num_components lib.JCS_RGB image.num_components = image.num_components := by
      rw [hthree, hlib.num_components_rgb]
    rw [hnum, stride_eq, start_compress_ok image hsrc, if_pos ((hlib.accepts_rgb _).mpr hthree), if_pos hthree]
  · have hrefused : lib.accepts lib.JCS_RGB image.num_components = false := by
      rw [Bool.eq_false_iff]
      exact fun haccepts => hthree ((hlib.accepts_rgb _).mp haccepts)
    rw [start_compress, if_pos hrefused, if_neg hthree]

/-- No row is read outside the buffer, but in the place of the rows that begin 2^32 bytes or more behind its
beginning, bytes from its beginning are compressed again. -/
theorem compress_passes_rows_iff (hlib : lib.Lawful) (outfile : Bool) (color_space : Int) (image : JpegImage) :
    (∀ src : List UInt8, src.length = image.image_height * image.row_stride →
      ∃ rows : List (List UInt8), rows.length = image.image_height ∧
        (∀ y < image.image_height,
          rows[y]? = some ((src.drop (y * image.row_stride % 2 ^ 32)).take image.row_stride)) ∧
        compress_jpeg_to_file lib outfile image color_space src =
          .ok (if outfile = true ∧ lib.accepts color_space image.num_components = true then some rows else none) ∧
        compress_jpeg_to_mem lib image color_space src =
          .ok (if lib.accepts color_space image.num_components = true then some rows else none) ∧
        CompressJPEG lib image src = .ok (if image.num_components = 3 then some rows else none)) ∧
    (PassesRows image (compress_jpeg_to_file lib outfile image color_space) ↔
      (outfile = true ∧ lib.accepts color_space image.num_components = true) ∧
        (image.image_height - 1) * image.row_stride < 2 ^ 32) ∧
    (PassesRows image (compress_jpeg_to_mem lib image color_space) ↔
      lib.accepts color_space image.num_components = true ∧
        (image.image_height - 1) * image.row_stride < 2 ^ 32) ∧
    (PassesRows image (CompressJPEG lib image) ↔
      image.num_components = 3 ∧ (image.image_height - 1) * image.row_stride < 2 ^ 32) := by
  refine ⟨fun src hsrc => ?_, passesRows_iff image fun src => compress_jpeg_to_file_ok image,
    passesRows_iff image fun src => compress_jpeg_to_mem_ok image,
    passesRows_iff image fun src => CompressJPEG_ok image hlib⟩
  refine ⟨(List.range image.image_height).map (rowAt image src), by simp, fun y hy => ?_,
    compress_jpeg_to_file_ok image hsrc, compress_jpeg_to_mem_ok image hsrc, CompressJPEG_ok image hlib hsrc⟩
  rw [List.getElem?_map, List.getElem?_range hy, Option.map_some]
  rfl

/-- The colour spaces of libjpeg in the order of its enumeration. -/
def libjpeg : Libjpeg where
  JCS_RGB := 2
  accepts color_space components :=
    match color_space with
    | 0 => components ≠ 0
    | 1 => components = 1
    | 2 | 3 => components = 3
    | 4 | 5 => components = 4
    | _ => false
  num_components color_space components :=
    match color_space with
    | 1 => 1
    | 2 | 3 => 3
    | 4 | 5 => 4
    | _ => components

theorem libjpeg_lawful : libjpeg.Lawful where
  accepts_rgb _ := decide_eq_true_iff
  num_components_rgb := rfl

def greyImage : JpegImage := ⟨5, 4, 1, by decide, by decide, by decide⟩

theorem compress_passes_rows_iff_grey :
    PassesRows greyImage (compress_jpeg_to_file libjpeg true greyImage 1) ∧
      PassesRows greyImage (compress_jpeg_to_mem libjpeg greyImage 1) ∧
      ¬ PassesRows greyImage (CompressJPEG libjpeg greyImage) := by
  obtain ⟨-, hfile, hmem, hrgb⟩ := compress_passes_rows_iff libjpeg_lawful true 1 greyImage
  exact ⟨hfile.mpr (by decide), hmem.mpr (by decide), fun hpass => absurd (hrgb.mp hpass).1 (by decide)⟩

end Write

end JpegRows

end CPractice
