import ZeptoOS.Fs.Ext2Read

/-!
# Fs — Ext2Blocks

The blocks that a file access uses.

`ext2_read_data` and `ext2_node_write` take `offset / block_size` for an index into `i_block`, and
check neither the index nor the pointer there, which may be to a block past the end of the drive:
then it is another one that is fetched, or none.  A read uses direct pointers to blocks of the drive
only exactly if the bytes it returns are all in such blocks, and a write exactly if its offset is
and what it writes fits the block buffer (`data_blocks_iff`).
-/

namespace ZeptoOS.Fs
open Lib

/-- The direct pointers among the entries of `i_block`. -/
def directBlocks : ℕ := 12

section Indices

variable (E : Ext2) (inode : Inode) (size : BitVec 32)

/-- The loop of `ext2_read_data`, with `fuel` turns: the indices into `i_block` of the blocks it
fetches. -/
def readIndices : ℕ → BitVec 32 → BitVec 32 → Option (List ℕ)
  | 0, _, _ => none
  | fuel + 1, bytesRead, offset =>
      if bytesRead < size ∧ offset < BitVec.ofNat 32 inode.size then
        let bIdx := offset / BitVec.ofNat 32 E.blockSize
        let chunk := readChunk E inode size bytesRead offset
        (readIndices fuel (bytesRead + chunk) (offset + chunk)).map (bIdx.toNat :: ·)
      else some []

end Indices

/-- The index into `i_block` of the block that `ext2_node_write` fetches and overwrites. -/
def writeIndex (E : Ext2) (offset : BitVec 32) : ℕ :=
  (offset / BitVec.ofNat 32 E.blockSize).toNat

variable {E : Ext2} {disk : Disk} {inode : Inode} {size : BitVec 32} {d : Drive}

/-! ### Reading -/

/-- What a turn of the loop reads lies in one block. -/
theorem div_of_chunk (hE : E.Sized) {offset k n : ℕ} (hn : offset % E.blockSize + n ≤ E.blockSize)
    (hlo : offset ≤ k) (hhi : k < offset + n) : k / E.blockSize = offset / E.blockSize := by
  have hsum := Nat.mod_add_div offset E.blockSize
  rw [Nat.div_eq_iff hE.sectors.2.2, Nat.mul_comm]
  generalize E.blockSize * (offset / E.blockSize) = q at hsum ⊢
  omega

/-- The loop, with `n` bytes left to read, uses the blocks that these are in. -/
theorem readIndices_spec (hE : E.Sized) (n : ℕ) : ∀ (bytesRead offset : BitVec 32),
    bytesRead ≤ size → n = min (size.toNat - bytesRead.toNat) (inode.size - offset.toNat) →
    ∃ is, (∀ fuel > n, readIndices E inode size fuel bytesRead offset = some is) ∧
      ∀ i, i ∈ is ↔ ∃ k, offset.toNat ≤ k ∧ k < offset.toNat + n ∧ k / E.blockSize = i := by
  induction n using Nat.strong_induction_on with
  | _ n ih =>
      intro bytesRead offset hread hn
      have hread' := BitVec.le_def.mp hread
      have hsize' := size.isLt
      have hisize : inode.size < 256 ^ 4 := leAt_lt _ _ _
      by_cases hmore : bytesRead.toNat < size.toNat ∧ offset.toNat < inode.size
      · have hchunk := readChunk_toNat hE hread hmore.2
        have hoff := Nat.mod_lt offset.toNat hE.sectors.2.2
        generalize hc : readChunk E inode size bytesRead offset = chunk at hchunk
        have hread₁ : (bytesRead + chunk).toNat = bytesRead.toNat + chunk.toNat := by
          rw [BitVec.toNat_add, Nat.mod_eq_of_lt (by omega)]
        have hoff₁ : (offset + chunk).toNat = offset.toNat + chunk.toNat := by
          rw [BitVec.toNat_add, Nat.mod_eq_of_lt (by omega)]
        obtain ⟨is, hrest, hmem⟩ := ih (n - chunk.toNat) (by omega) (bytesRead + chunk)
          (offset + chunk) (BitVec.le_def.mpr (by omega)) (by omega)
        have hidx : (offset / BitVec.ofNat 32 E.blockSize).toNat = offset.toNat / E.blockSize := by
          rw [BitVec.toNat_udiv, hE.toNat]
        refine ⟨offset.toNat / E.blockSize :: is, ?_, ?_⟩
        · intro fuel hfuel
          obtain ⟨fuel, rfl⟩ := Nat.exists_eq_succ_of_ne_zero (Nat.ne_zero_of_lt hfuel)
          have hturn : bytesRead < size ∧ offset < BitVec.ofNat 32 inode.size := by
            rwa [BitVec.lt_def, BitVec.lt_def, inode.toNat_size]
          rw [readIndices, if_pos hturn]
          dsimp only
          rw [hc, hidx, hrest fuel (by omega)]
          rfl
        · intro i
          rw [List.mem_cons, hmem, hoff₁]
          constructor
          · rintro (rfl | ⟨k, hlo, hhi, hk⟩)
            · exact ⟨offset.toNat, Nat.le_refl _, by omega, rfl⟩
            · exact ⟨k, by omega, by omega, hk⟩
          · rintro ⟨k, hlo, hhi, hk⟩
            -- the bytes of this turn are in one block, and the rest comes in later turns
            by_cases hturn : k < offset.toNat + chunk.toNat
            · exact .inl (hk.symm.trans (div_of_chunk hE (by omega) hlo hturn))
            · exact .inr ⟨k, by omega, by omega, hk⟩
      · obtain rfl : n = 0 := by omega
        have hnone : ∀ i, i ∉ ([] : List ℕ) := fun _ => List.not_mem_nil
        refine ⟨[], fun fuel hfuel => ?_, fun i => iff_of_false (hnone i) (by rintro ⟨k, h⟩; omega)⟩
        obtain ⟨fuel, rfl⟩ := Nat.exists_eq_succ_of_ne_zero (Nat.ne_zero_of_lt hfuel)
        have hend : ¬ (bytesRead < size ∧ offset < BitVec.ofNat 32 inode.size) := by
          rwa [BitVec.lt_def, BitVec.lt_def, inode.toNat_size]
        rw [readIndices, if_neg hend]

/-! ### Data blocks -/

/-- The block fetched for the index is a data block of the file: the pointer is a direct one and not
0, and the sectors asked for are those of the block, and of the drive. -/
structure DataBlock (E : Ext2) (capacity : ℕ) (inode : Inode) (i : ℕ) : Prop where
  direct : i < directBlocks
  allocated : inode.block i ≠ 0
  start : E.blockStart (inode.block i) = inode.block i * E.blockSize
  onDrive : E.blockStart (inode.block i) + E.blockSize ≤ 512 * capacity

/-- `ext2_read_data` returns, and fetches data blocks of the file only. -/
def ReadsDataBlocks (E : Ext2) (d : Drive) (inode : Inode) (offset size : BitVec 32)
    (buffer : Buffer) : Prop :=
  (∃ r, Returns (fun fuel => ext2ReadDataInto E inode size offset fuel d buffer) (.ok r)) ∧
    ∃ is, Returns (fun fuel => readIndices E inode size fuel 0 offset) is ∧
      ∀ i ∈ is, DataBlock E d.capacity inode i

/-- `ext2_node_write` fetches and overwrites a data block of the file, keeps to its block buffer,
and changes no byte of the disk off the block. -/
def WritesDataBlock (E : Ext2) (d : Drive) (node : ℕ) (inode : Inode) (offset size : BitVec 32)
    (buffer : ℕ → Byte) : Prop :=
  DataBlock E d.capacity inode (writeIndex E offset) ∧
    ∃ n disk', ext2NodeWrite E d.disk node offset.toNat size.toNat buffer = .ok (n, disk') ∧
      ∀ a, ¬ (E.blockStart (inode.block (writeIndex E offset)) ≤ a ∧
        a < E.blockStart (inode.block (writeIndex E offset)) + E.blockSize) → disk' a = d.disk a

/-- Byte `k` of the file is in one of its first twelve blocks, and that is allocated and one of the
drive. -/
def InDataBlock (E : Ext2) (capacity : ℕ) (inode : Inode) (k : ℕ) : Prop :=
  k < directBlocks * E.blockSize ∧ inode.block (k / E.blockSize) ≠ 0 ∧
    E.OnDrive capacity (inode.block (k / E.blockSize))

instance (E : Ext2) (capacity : ℕ) (inode : Inode) (k : ℕ) :
    Decidable (InDataBlock E capacity inode k) :=
  inferInstanceAs (Decidable (_ ∧ _ ∧ _))

theorem dataBlock_div (hE : E.Sized) (k : ℕ) :
    DataBlock E d.capacity inode (k / E.blockSize) ↔ InDataBlock E d.capacity inode k := by
  rw [InDataBlock, ← Nat.div_lt_iff_lt_mul hE.sectors.2.2]
  constructor
  · intro h
    have hend := h.onDrive
    rw [h.start, ← Nat.succ_mul] at hend
    exact ⟨h.direct, h.allocated, hend⟩
  · rintro ⟨hdirect, hallocated, hblock⟩
    have hstart := hblock.blockStart_eq hE
    refine ⟨hdirect, hallocated, hstart, ?_⟩
    rw [hstart, ← Nat.succ_mul]
    exact hblock

theorem readsDataBlocks_iff (hE : E.Sized) (hidle : d.transfer = none) {offset : BitVec 32}
    (buffer : Buffer) :
    ReadsDataBlocks E d inode offset size buffer ↔ ∀ k, offset.toNat ≤ k →
      k < offset.toNat + size.toNat → k < inode.size → InDataBlock E d.capacity inode k := by
  obtain ⟨is, hret, hmem⟩ :
      ∃ is, (∀ fuel > _, readIndices E inode size fuel 0 offset = some is) ∧ _ :=
    readIndices_spec hE _ 0 offset (BitVec.le_def.mpr (Nat.zero_le _)) rfl
  have hzero : (0 : BitVec 32).toNat = 0 := rfl
  rw [hzero, Nat.sub_zero] at hmem
  constructor
  · rintro ⟨-, is', hret', hdata⟩ k hlo hhi hfile
    obtain rfl := hret'.unique ⟨_, hret⟩
    exact (dataBlock_div hE k).mp (hdata _ ((hmem _).mpr ⟨k, hlo, by omega, rfl⟩))
  · intro hdata
    have hbytes : BytesOnDrive E d.capacity inode offset.toNat
        (offset.toNat + min size.toNat (inode.size - offset.toNat)) := by
      intro k hlo hhi
      have hblock := (dataBlock_div hE k).mpr (hdata k hlo (by omega) (by omega))
      exact ⟨hblock.direct.trans (by decide), (hdata k hlo (by omega) (by omega)).2.2⟩
    have hstart : (0 : BitVec 32) ≤ size := BitVec.le_def.mpr (Nat.zero_le _)
    obtain ⟨d', buffer', hloop, -⟩ := readDataLoop_spec hE offset.toNat
      (min size.toNat (inode.size - offset.toNat)) 0 offset buffer ⟨rfl, rfl, hidle⟩ hstart rfl rfl
      hbytes
    refine ⟨⟨_, hloop⟩, is, ⟨_, hret⟩, ?_⟩
    intro i hi
    obtain ⟨k, hlo, hhi, rfl⟩ := (hmem i).mp hi
    exact (dataBlock_div hE k).mpr (hdata k hlo (by omega) (by omega))

/-! ### Writing -/

/-- What is written lies in the block of the offset. -/
theorem writtenDisk_outside {offset size a : ℕ} (buffer : ℕ → Byte)
    (ha : ¬ (E.blockStart (inode.block (offset / E.blockSize)) ≤ a ∧
      a < E.blockStart (inode.block (offset / E.blockSize)) + E.blockSize)) :
    writtenDisk E disk inode offset size buffer a = disk a := by
  rw [writtenDisk, if_neg]
  rintro ⟨hle, -, hend⟩
  exact ha ⟨by omega, hend⟩

theorem writesDataBlock_iff (hE : E.Sized) {node : ℕ}
    (hread : ext2ReadInode E d.disk node = .ok inode) {offset : BitVec 32} (buffer : ℕ → Byte) :
    WritesDataBlock E d node inode offset size buffer ↔
      InDataBlock E d.capacity inode offset.toNat ∧
        offset.toNat % E.blockSize + size.toNat ≤ blockBuf := by
  have hidx : writeIndex E offset = offset.toNat / E.blockSize := by
    rw [writeIndex, BitVec.toNat_udiv, hE.toNat]
  rw [WritesDataBlock, hidx, dataBlock_div hE]
  refine and_congr_right fun hdata => ?_
  have hoff : offset.toNat < inodeBlocks * E.blockSize :=
    lt_of_lt_of_le hdata.1 (Nat.mul_le_mul_right _ (by decide))
  rw [ext2NodeWrite_eq hE buffer hread hoff]
  split
  · rename_i hover
    refine iff_of_false ?_ (Nat.not_le.mpr hover)
    rintro ⟨n, disk', hret, -⟩
    cases hret
  · rename_i hfits
    exact iff_of_true ⟨_, _, rfl, fun a ha => writtenDisk_outside buffer ha⟩ (Nat.not_lt.mp hfits)

end ZeptoOS.Fs
