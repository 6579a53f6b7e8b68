import ZeptoOS.Core.Pata
import ZeptoOS.Fs.Ext2File
import ZeptoOS.Lib.Store

/-!
# Fs — Ext2Read

`ext2_read_data` in the arithmetic of the source: `bytes_read`, `offset` and the sizes are
`uint32_t`, the stores go to the caller's buffer, and the loop runs as long as it runs.  The blocks
come from a drive by `pata_read_sectors`, which waits for it.  If the drive has the blocks of the
file, the loop ends, and leaves the bytes of the file in the buffer and nothing else
(`read_data_file_slice`).
-/

namespace ZeptoOS.Fs
open Lib

/-- The caller's buffer. -/
abbrev Buffer := Store ℕ Byte

/-- `for (i = 0; i < chunk; i++) buffer[bytes_read++] = b_buf[b_off + i];` -/
def copyChunk (bBuf : ℕ → Byte) (bOff chunk bytesRead : BitVec 32) (buffer : Buffer) : Buffer :=
  buffer.setAll (fun i => (bytesRead + BitVec.ofNat 32 i).toNat)
    (fun i => bBuf (bOff + BitVec.ofNat 32 i).toNat) (List.range chunk.toNat)

section Loop

variable (E : Ext2) (inode : Inode) (size : BitVec 32)

/-- `ext2_read_block`, from a drive: the drive after, and the block buffer. -/
def ext2FetchBlock (fuel : ℕ) (d : Drive) (blockNum : ℕ) :
    Option (Except Ext2Fault (Drive × (ℕ → Byte))) :=
  if blockBuf < 512 * (E.sectorsPerBlock % 256) then some (.error .outside)
  else
    (Core.pataReadSectors fuel d (BitVec.ofNat 32 (blockNum * E.sectorsPerBlock))
      (BitVec.ofNat 8 E.sectorsPerBlock) fun _ => 0).map fun (_, d, buf) => .ok (d, buf)

/-- `chunk` -/
def readChunk (bytesRead offset : BitVec 32) : BitVec 32 :=
  let chunk := BitVec.ofNat 32 E.blockSize - offset % BitVec.ofNat 32 E.blockSize
  let chunk := if size - bytesRead < chunk then size - bytesRead else chunk
  if BitVec.ofNat 32 inode.size - offset < chunk then BitVec.ofNat 32 inode.size - offset
  else chunk

/-- The loop of `ext2_read_data`, with `fuel` turns, and as many reads of the status in a wait: what
it returns, the drive and the buffer. -/
def readDataLoop : ℕ → Drive → BitVec 32 → BitVec 32 → Buffer →
    Option (Except Ext2Fault (BitVec 32 × Drive × Buffer))
  | 0, _, _, _, _ => none
  | fuel + 1, d, bytesRead, offset, buffer =>
      if bytesRead < size ∧ offset < BitVec.ofNat 32 inode.size then
        if E.blockSize = 0 then some (.error .divide)
        else
          let bIdx := offset / BitVec.ofNat 32 E.blockSize
          let bOff := offset % BitVec.ofNat 32 E.blockSize
          let chunk := readChunk E inode size bytesRead offset
          if inodeBlocks ≤ bIdx.toNat then some (.error .outside)
          else
            match ext2FetchBlock E fuel d (inode.block bIdx.toNat) with
            | none => none
            | some (.error e) => some (.error e)
            | some (.ok (d, bBuf)) =>
                if blockBuf < bOff.toNat + chunk.toNat then some (.error .outside)
                else
                  readDataLoop fuel d (bytesRead + chunk) (offset + chunk)
                    (copyChunk bBuf bOff chunk bytesRead buffer)
      else some (.ok (bytesRead, d, buffer))

/-- `ext2_read_data` -/
def ext2ReadDataInto (offset : BitVec 32) (fuel : ℕ) (d : Drive) (buffer : Buffer) :
    Option (Except Ext2Fault (BitVec 32 × Drive × Buffer)) :=
  readDataLoop E inode size fuel d 0 offset buffer

end Loop

/-- `buffer'` is `buffer` with the values `f` stored to the cells from `lo` up to `hi`, and to no
other. -/
structure Filled (buffer buffer' : Buffer) (lo hi : ℕ) (f : ℕ → Byte) : Prop where
  cell : ∀ k, buffer'.cell k = if lo ≤ k ∧ k < hi then f k else buffer.cell k
  written : ∀ k, k ∈ buffer'.written ↔ k ∈ buffer.written ∨ (lo ≤ k ∧ k < hi)

theorem Filled.none (buffer : Buffer) (lo : ℕ) (f : ℕ → Byte) : Filled buffer buffer lo lo f where
  cell k := (if_neg (by omega)).symm
  written k := by
    have : ¬ (lo ≤ k ∧ k < lo) := by omega
    simp only [this, or_false]

theorem Filled.trans {b b₁ b₂ : Buffer} {lo mid hi : ℕ} {f : ℕ → Byte} (h : Filled b b₁ lo mid f)
    (h' : Filled b₁ b₂ mid hi f) (hlo : lo ≤ mid) (hhi : mid ≤ hi) : Filled b b₂ lo hi f where
  cell k := by
    rw [h'.cell, h.cell]
    by_cases hm : mid ≤ k
    · by_cases hk : k < hi
      · rw [if_pos ⟨hm, hk⟩, if_pos ⟨by omega, hk⟩]
      · rw [if_neg (by omega), if_neg (by omega), if_neg (by omega)]
    · by_cases hk : lo ≤ k
      · rw [if_neg (by omega), if_pos ⟨hk, by omega⟩, if_pos ⟨hk, by omega⟩]
      · rw [if_neg (by omega), if_neg (by omega), if_neg (by omega)]
  written k := by
    rw [h'.written, h.written, or_assoc]
    exact or_congr_right ⟨fun h => by omega, fun h => by omega⟩

theorem Filled.congr {b b' : Buffer} {lo hi : ℕ} {f g : ℕ → Byte} (h : Filled b b' lo hi f)
    (hfg : ∀ k, lo ≤ k → k < hi → f k = g k) : Filled b b' lo hi g where
  cell k := by
    rw [h.cell]
    split
    · rename_i hk
      exact hfg k hk.1 hk.2
    · rfl
  written := h.written

/-! ### One turn -/

/-- A chunk is stored in order from `bytes_read` on. -/
theorem copyChunk_filled {bBuf : ℕ → Byte} {bOff chunk bytesRead : BitVec 32} (buffer : Buffer)
    (hdst : bytesRead.toNat + chunk.toNat < 2 ^ 32) (hsrc : bOff.toNat + chunk.toNat < 2 ^ 32) :
    Filled buffer (copyChunk bBuf bOff chunk bytesRead buffer) bytesRead.toNat
      (bytesRead.toNat + chunk.toNat) fun k => bBuf (bOff.toNat + (k - bytesRead.toNat)) := by
  have hindex : ∀ {a : BitVec 32}, a.toNat + chunk.toNat < 2 ^ 32 → ∀ i ∈ List.range chunk.toNat,
      (a + BitVec.ofNat 32 i).toNat = a.toNat + i := by
    intro a ha i hi
    have hi := List.mem_range.mp hi
    rw [BitVec.toNat_add, BitVec.toNat_ofNat, Nat.add_mod_mod, Nat.mod_eq_of_lt (by omega)]
  refine ⟨fun k => ?_, fun k => ?_⟩
  · by_cases hk : bytesRead.toNat ≤ k ∧ k < bytesRead.toNat + chunk.toNat
    · have hmem : k - bytesRead.toNat ∈ List.range chunk.toNat := List.mem_range.mpr (by omega)
      have hslot : (bytesRead + BitVec.ofNat 32 (k - bytesRead.toNat)).toNat = k := by
        rw [hindex hdst _ hmem]
        omega
      have hcell : (copyChunk bBuf bOff chunk bytesRead buffer).cell
          (bytesRead + BitVec.ofNat 32 (k - bytesRead.toNat)).toNat =
          bBuf (bOff + BitVec.ofNat 32 (k - bytesRead.toNat)).toNat := by
        refine Store.setAll_cell_slot (fun j hj e => ?_) hmem
        rw [hindex hdst _ hmem, hindex hdst j hj] at e
        omega
      rw [if_pos hk]
      rw [hslot, hindex hsrc _ hmem] at hcell
      exact hcell
    · rw [if_neg hk]
      refine Store.setAll_cell_other fun i hi => ?_
      have := List.mem_range.mp hi
      rw [hindex hdst i hi]
      omega
  · rw [copyChunk, Store.setAll_written, List.mem_append, List.mem_reverse, List.mem_map, or_comm]
    refine or_congr_right ⟨?_, fun hk => ⟨k - bytesRead.toNat, List.mem_range.mpr (by omega), ?_⟩⟩
    · rintro ⟨i, hi, rfl⟩
      have := List.mem_range.mp hi
      rw [hindex hdst i hi]
      omega
    · rw [hindex hdst _ (List.mem_range.mpr (by omega))]
      omega

variable {E : Ext2} {disk : Disk} {inode : Inode} {size : BitVec 32} {d : Drive} {capacity : ℕ}

/-- The drive has the block `b`. -/
def Ext2.OnDrive (E : Ext2) (capacity b : ℕ) : Prop := (b + 1) * E.blockSize ≤ 512 * capacity

instance (E : Ext2) (capacity b : ℕ) : Decidable (E.OnDrive capacity b) :=
  inferInstanceAs (Decidable (_ ≤ _))

theorem Ext2.OnDrive.blockStart_eq (hE : E.Sized) {b : ℕ} (hb : E.OnDrive d.capacity b) :
    E.blockStart b = b * E.blockSize :=
  Ext2.blockStart_eq hE (hb.trans (Nat.mul_le_mul_left 512 d.capacity_le))

/-- A block that the drive has is fetched. -/
theorem ext2FetchBlock_returns (hE : E.Sized) (h : d.At disk capacity none) {b : ℕ}
    (hb : E.OnDrive capacity b) :
    ∃ d', Returns (fun fuel => ext2FetchBlock E fuel d b) (.ok (d', E.block disk b)) ∧
      d'.At disk capacity none := by
  obtain ⟨rfl, rfl, ht⟩ := h
  obtain ⟨hbytes, hbuf, hpos⟩ := hE.sectors
  have hcapacity := d.capacity_le
  have hcount : BitVec.ofNat 8 E.sectorsPerBlock ≠ 0 := by
    intro hzero
    have hmod : E.sectorsPerBlock % 256 = 0 := congrArg BitVec.toNat hzero
    omega
  have hsectors : E.sectorsPerBlock % 256 = E.sectorsPerBlock ∧
      512 * E.sectorsPerBlock = E.blockSize := by
    rw [Ext2.sectorsPerBlock]
    rcases hE with h | h | h <;> rw [h] <;> decide
  have hlast : (b + 1) * E.sectorsPerBlock ≤ d.capacity := by
    have hb' : (b + 1) * (512 * E.sectorsPerBlock) ≤ 512 * d.capacity := by
      rw [hsectors.2]
      exact hb
    rw [Nat.mul_left_comm] at hb'
    exact Nat.le_of_mul_le_mul_left hb' (by decide)
  rw [Nat.succ_mul] at hlast
  have hfits : (BitVec.ofNat 32 (b * E.sectorsPerBlock)).toNat % 2 ^ 28 +
      (BitVec.ofNat 8 E.sectorsPerBlock).toNat ≤ d.capacity := by
    rw [BitVec.toNat_ofNat, BitVec.toNat_ofNat]
    omega
  obtain ⟨d', hread, hd'⟩ := Core.pataReadSectors_returns ht hcount hfits fun _ => 0
  refine ⟨d', ?_, hd'⟩
  have hfetch := Returns.map hread fun (_, d, buf) => (.ok (d, buf) : Except Ext2Fault _)
  simp only [ext2FetchBlock, hbytes, if_neg (Nat.not_lt.mpr hbuf)]
  exact hfetch

theorem Ext2.Sized.toNat (hE : E.Sized) : (BitVec.ofNat 32 E.blockSize).toNat = E.blockSize := by
  rcases hE with h | h | h <;> rw [h] <;> rfl

/-- A chunk ends where the block, the request or the file does. -/
theorem readChunk_toNat (hE : E.Sized) {bytesRead offset : BitVec 32} (hread : bytesRead ≤ size)
    (hoff : offset.toNat < inode.size) : (readChunk E inode size bytesRead offset).toNat =
      min (min (E.blockSize - offset.toNat % E.blockSize) (size.toNat - bytesRead.toNat))
        (inode.size - offset.toNat) := by
  have hbs := hE.toNat
  have hpos := hE.sectors.2.2
  have hisize := inode.toNat_size
  have hlast := Nat.mod_lt offset.toNat hpos
  have hblock : (BitVec.ofNat 32 E.blockSize - offset % BitVec.ofNat 32 E.blockSize).toNat =
      E.blockSize - offset.toNat % E.blockSize := by
    rw [BitVec.toNat_sub_of_le, BitVec.toNat_umod, hbs]
    rw [BitVec.le_def, BitVec.toNat_umod, hbs]
    exact hlast.le
  have hrequest : (size - bytesRead).toNat = size.toNat - bytesRead.toNat :=
    BitVec.toNat_sub_of_le hread
  have hfile : (BitVec.ofNat 32 inode.size - offset).toNat = inode.size - offset.toNat := by
    rw [BitVec.toNat_sub_of_le, hisize]
    rw [BitVec.le_def, hisize]
    exact hoff.le
  simp only [readChunk, BitVec.lt_def, apply_ite BitVec.toNat, hblock, hrequest, hfile]
  split <;> split <;> omega

/-- **One turn** of the loop, where there is something left to read. -/
theorem readDataLoop_turn (hE : E.Sized) (h : d.At disk capacity none)
    {bytesRead offset : BitVec 32} (hread : bytesRead < size) (hoff : offset.toNat < inode.size)
    (hidx : offset.toNat / E.blockSize < inodeBlocks)
    (hblock : E.OnDrive capacity (inode.block (offset.toNat / E.blockSize))) (buffer : Buffer) :
    ∃ (chunk : BitVec 32) (buffer' : Buffer) (d' : Drive), 0 < chunk.toNat ∧
      bytesRead.toNat + chunk.toNat ≤ size.toNat ∧ offset.toNat + chunk.toNat ≤ inode.size ∧
      Filled buffer buffer' bytesRead.toNat (bytesRead.toNat + chunk.toNat)
        (fun k => fileByte E disk inode (offset.toNat + (k - bytesRead.toNat))) ∧
      d'.At disk capacity none ∧
      ∀ {r}, Returns (fun fuel => readDataLoop E inode size fuel d' (bytesRead + chunk)
          (offset + chunk) buffer') r →
        Returns (fun fuel => readDataLoop E inode size fuel d bytesRead offset buffer) r := by
  have hbs := hE.toNat
  obtain ⟨-, hbuf, hpos⟩ := hE.sectors
  have hmod := Nat.mod_lt offset.toNat hpos
  have hlt := BitVec.lt_def.mp hread
  have hchunk := readChunk_toNat hE (BitVec.le_of_lt hread) hoff
  have hbOff : (offset % BitVec.ofNat 32 E.blockSize).toNat = offset.toNat % E.blockSize := by
    rw [BitVec.toNat_umod, hbs]
  have hbIdx : (offset / BitVec.ofNat 32 E.blockSize).toNat = offset.toNat / E.blockSize := by
    rw [BitVec.toNat_udiv, hbs]
  have hmore : bytesRead < size ∧ offset < BitVec.ofNat 32 inode.size :=
    ⟨hread, BitVec.lt_def.mpr (by rwa [inode.toNat_size])⟩
  have hfits := size.isLt
  obtain ⟨d', ⟨n, hfetch⟩, hd'⟩ := ext2FetchBlock_returns hE h hblock
  unfold blockBuf at hbuf
  refine ⟨readChunk E inode size bytesRead offset,
    copyChunk (E.block disk (inode.block (offset.toNat / E.blockSize)))
      (offset % BitVec.ofNat 32 E.blockSize) (readChunk E inode size bytesRead offset) bytesRead
      buffer, d', by omega, by omega, by omega, ?_, hd', ?_⟩
  · refine (copyChunk_filled buffer (by omega) (by omega)).congr fun k hlo hhi => ?_
    have hslice : slice (E.block disk (inode.block (offset.toNat / E.blockSize)))
        (offset.toNat % E.blockSize) (readChunk E inode size bytesRead offset).toNat =
        slice (fileByte E disk inode) offset.toNat _ :=
      slice_block hE (by omega)
    have hbyte := slice_eq_slice.mp hslice (k - bytesRead.toNat) (by omega)
    rwa [hbOff]
  · rintro r ⟨m, hrest⟩
    refine ⟨max n m + 1, fun fuel hfuel => ?_⟩
    obtain ⟨fuel, rfl⟩ := Nat.exists_eq_succ_of_ne_zero (Nat.ne_zero_of_lt hfuel)
    have hblockBuf := hfetch fuel (by omega)
    have hloop := hrest fuel (by omega)
    dsimp only at hblockBuf hloop ⊢
    rw [readDataLoop, if_pos hmore, if_neg (Nat.ne_of_gt hpos)]
    dsimp only
    rw [hbIdx, if_neg (Nat.not_le.mpr hidx), hblockBuf]
    dsimp only
    rw [hbOff, if_neg (by unfold blockBuf; omega), hloop]

/-- The bytes of the file from `lo` up to `hi` lie in blocks that the drive has. -/
def BytesOnDrive (E : Ext2) (capacity : ℕ) (inode : Inode) (lo hi : ℕ) : Prop :=
  ∀ k, lo ≤ k → k < hi →
    k / E.blockSize < inodeBlocks ∧ E.OnDrive capacity (inode.block (k / E.blockSize))

/-- **The loop** ends, and leaves in the buffer what is left to read, if `offset` is where
`bytes_read` says from `start` on. -/
theorem readDataLoop_spec (hE : E.Sized) (start : ℕ) (n : ℕ) :
    ∀ (bytesRead offset : BitVec 32) (buffer : Buffer) {d : Drive}, d.At disk capacity none →
    bytesRead ≤ size → offset.toNat = start + bytesRead.toNat →
    n = min (size.toNat - bytesRead.toNat) (inode.size - offset.toNat) →
    BytesOnDrive E capacity inode offset.toNat (offset.toNat + n) →
    ∃ (d' : Drive) (buffer' : Buffer),
      Returns (fun fuel => readDataLoop E inode size fuel d bytesRead offset buffer)
        (.ok (bytesRead + BitVec.ofNat 32 n, d', buffer')) ∧
      d'.At disk capacity none ∧
      Filled buffer buffer' bytesRead.toNat (bytesRead.toNat + n)
        fun k => fileByte E disk inode (start + k) := by
  induction n using Nat.strong_induction_on with
  | _ n ih =>
      intro bytesRead offset buffer d hd hread hstart hn hbytes
      have hread' := BitVec.le_def.mp hread
      have hsize' := size.isLt
      have hisize : inode.size < 256 ^ 4 := leAt_lt _ _ _
      by_cases hmore : bytesRead.toNat < size.toNat ∧ offset.toNat < inode.size
      · obtain ⟨hidx, hblock⟩ := hbytes offset.toNat (Nat.le_refl _) (by omega)
        obtain ⟨chunk, buffer₁, d₁, hpos, hreq, hfile, hfill, hd₁, hturn⟩ :=
          readDataLoop_turn hE hd (BitVec.lt_def.mpr hmore.1) hmore.2 hidx hblock buffer
        have hread₁ : (bytesRead + chunk).toNat = bytesRead.toNat + chunk.toNat := by
          rw [BitVec.toNat_add, Nat.mod_eq_of_lt (by omega)]
        have hoff₁ : (offset + chunk).toNat = offset.toNat + chunk.toNat := by
          rw [BitVec.toNat_add, Nat.mod_eq_of_lt (by omega)]
        -- `ih` reads the rest
        obtain ⟨d₂, buffer₂, hrest, hd₂, hfill₂⟩ := ih (n - chunk.toNat) (by omega)
          (bytesRead + chunk) (offset + chunk) buffer₁ hd₁ (BitVec.le_def.mpr (by omega))
          (by omega) (by omega) fun k hlo hhi => hbytes k (by omega) (by omega)
        have hsum : chunk + BitVec.ofNat 32 (n - chunk.toNat) = BitVec.ofNat 32 n := by
          apply BitVec.eq_of_toNat_eq
          rw [BitVec.toNat_add, BitVec.toNat_ofNat, BitVec.toNat_ofNat, Nat.add_mod_mod]
          congr 1
          omega
        rw [BitVec.add_assoc, hsum] at hrest
        refine ⟨d₂, buffer₂, hturn hrest, hd₂, ?_⟩
        rw [hread₁] at hfill₂
        have hend : bytesRead.toNat + chunk.toNat + (n - chunk.toNat) = bytesRead.toNat + n := by
          omega
        rw [hend] at hfill₂
        refine (hfill.congr fun k hlo hhi => ?_).trans hfill₂ (by omega) (by omega)
        congr 1
        omega
      · obtain rfl : n = 0 := by omega
        refine ⟨d, buffer, Returns.stop fun fuel => ?_, hd, Filled.none buffer _ _⟩
        have hend : ¬ (bytesRead < size ∧ offset < BitVec.ofNat 32 inode.size) := by
          rwa [BitVec.lt_def, BitVec.lt_def, inode.toNat_size]
        rw [readDataLoop, if_neg hend, BitVec.add_zero]

/-! ### The slice of the file -/

/-- The blocks of the inode, one after another. -/
def fileBlocks (E : Ext2) (disk : Disk) (inode : Inode) : List Byte :=
  (List.range inodeBlocks).flatMap fun i => slice disk (inode.block i * E.blockSize) E.blockSize

/-- The byte read is that of the file, if the drive has the block. -/
theorem fileBlocks_getElem? (hE : E.Sized) {k : ℕ} (hidx : k / E.blockSize < inodeBlocks)
    (hblock : E.OnDrive d.capacity (inode.block (k / E.blockSize))) :
    (fileBlocks E disk inode)[k]? = some (fileByte E disk inode k) := by
  have hk := (Nat.div_lt_iff_lt_mul hE.sectors.2.2).mp hidx
  rw [fileBlocks, getElem?_slices disk (fun i => inode.block i * E.blockSize) E.blockSize hk,
    fileByte, hblock.blockStart_eq hE]

/-- A read of `size` bytes from `offset` on ends, returns how many the file has there, stores these
to the start of the buffer and nothing beyond them, and leaves the drive idle, with its disk as it
was. -/
def ReadsSlice (E : Ext2) (d : Drive) (inode : Inode) (size offset : BitVec 32)
    (buffer : Buffer) : Prop :=
  ∃ (n : BitVec 32) (d' : Drive) (buffer' : Buffer),
    Returns (fun fuel => ext2ReadDataInto E inode size offset fuel d buffer)
      (.ok (n, d', buffer')) ∧
    d'.At d.disk d.capacity none ∧
    n.toNat = (if inode.size ≤ offset.toNat then 0
      else min size.toNat (inode.size - offset.toNat)) ∧
    (∀ k < n.toNat, (fileBlocks E d.disk inode)[offset.toNat + k]? = some (buffer'.cell k)) ∧
    (∀ k, n.toNat ≤ k → buffer'.cell k = buffer.cell k) ∧
    ∀ k, k ∈ buffer'.written ↔ k ∈ buffer.written ∨ k < n.toNat

/-- **`ext2_read_data` returns the slice** of a file of at most twelve blocks, if the drive has
them. -/
theorem read_data_file_slice (hE : E.Sized) (hidle : d.transfer = none)
    (hsize : inode.size ≤ 12 * E.blockSize)
    (hblocks : ∀ i, i * E.blockSize < inode.size → E.OnDrive d.capacity (inode.block i))
    (offset : BitVec 32) (buffer : Buffer) : ReadsSlice E d inode size offset buffer := by
  have hlen := size.isLt
  have hpos := hE.sectors.2.2
  have hbytes : BytesOnDrive E d.capacity inode offset.toNat
      (offset.toNat + min size.toNat (inode.size - offset.toNat)) := by
    intro k hlo hhi
    refine ⟨?_, hblocks _ (lt_of_le_of_lt (Nat.div_mul_le_self k _) (by omega))⟩
    rw [Nat.div_lt_iff_lt_mul hpos]
    unfold inodeBlocks
    omega
  have hstart : (0 : BitVec 32) ≤ size := BitVec.le_def.mpr (Nat.zero_le _)
  obtain ⟨d', buffer', hret, hd', hfill⟩ := readDataLoop_spec hE offset.toNat
    (min size.toNat (inode.size - offset.toNat)) 0 offset buffer ⟨rfl, rfl, hidle⟩ hstart rfl rfl
    hbytes
  have hzero : (0 : BitVec 32).toNat = 0 := rfl
  have hsum : (0 : BitVec 32) + BitVec.ofNat 32 (min size.toNat (inode.size - offset.toNat)) =
      BitVec.ofNat 32 (min size.toNat (inode.size - offset.toNat)) := BitVec.zero_add _
  rw [hsum] at hret
  rw [hzero, Nat.zero_add] at hfill
  have hcount : (BitVec.ofNat 32 (min size.toNat (inode.size - offset.toNat))).toNat =
      min size.toNat (inode.size - offset.toNat) := by
    rw [BitVec.toNat_ofNat, Nat.mod_eq_of_lt (by omega)]
  refine ⟨_, d', buffer', hret, hd', ?_, ?_, ?_, ?_⟩
  · rw [hcount]
    split <;> omega
  · rw [hcount]
    intro k hk
    obtain ⟨hidx, hblock⟩ := hbytes (offset.toNat + k) (by omega) (by omega)
    rw [fileBlocks_getElem? hE hidx hblock, hfill.cell, if_pos ⟨Nat.zero_le k, hk⟩]
  · rw [hcount]
    intro k hk
    rw [hfill.cell, if_neg (by omega)]
  · rw [hcount]
    intro k
    rw [hfill.written]
    exact or_congr_right ⟨And.right, fun hk => ⟨Nat.zero_le k, hk⟩⟩

/-- A drive of 32 sectors, idle, which gets busy before every sector. -/
def driveOf (disk : Disk) : Drive where
  disk := disk
  capacity := 32
  capacity_le := by decide
  device := 0
  secCount := 0
  lbaLow := 0
  lbaMid := 0
  lbaHigh := 0
  error := false
  transfer := none
  busy := 0
  delays _ := 3

/-- The drive has the blocks of the file. -/
theorem twoBlockFile_blocks (i : ℕ)
    (hi : i * 1024 < Inode.size (slice twoBlockFile 5120 inodeSize)) :
    Ext2.OnDrive ⟨8, 5, 1024⟩ 32 (Inode.block (slice twoBlockFile 5120 inodeSize) i) := by
  have hsize : Inode.size (slice twoBlockFile 5120 inodeSize) = 2048 := by decide +kernel
  obtain rfl | rfl : i = 0 ∨ i = 1 := by omega
  · decide +kernel
  · decide +kernel

/-- A read across the two blocks of a file, with a `size` near `2 ^ 32`. -/
theorem read_data_file_slice_across :
    ReadsSlice ⟨8, 5, 1024⟩ (driveOf twoBlockFile) (slice twoBlockFile 5120 inodeSize) 0xFFFFFFFF
      1022 ⟨fun _ => 0xFF, []⟩ :=
  read_data_file_slice (.inl rfl) rfl (by decide +kernel) twoBlockFile_blocks 1022 _

end ZeptoOS.Fs
