import ScalesOS.Tmpfs

/-!
# What a read of a file leaves

`__k_fs_tmpfs_read` with the address space that is active, the buffers that are in use and the
memory of its caller. At a block that is missing it returns as it is: in the address space of
the file, with its buffer, and before anything has been stored for the caller.
-/

namespace ScalesOS
open ByteMemory Storage

/-- The active page directory, the buffers of the kernel heap that have not been freed, and the
memory of the caller. -/
structure ReadContext where
  directory : ℕ
  buffers : List ℕ
  user : Mem

namespace ReadContext

def kMemPagingSetPageDirectory (k : ReadContext) (directory : ℕ) : ReadContext :=
  { k with directory := directory }

def kMalloc (k : ReadContext) (size : ℕ) : ReadContext := { k with buffers := size :: k.buffers }

def kFree (k : ReadContext) : ReadContext := { k with buffers := k.buffers.tail }

def memcpy (k : ReadContext) (buffer : ℕ) (data : List (BitVec 8)) : ReadContext :=
  { k with user := store k.user buffer data }

end ReadContext

namespace TmpfsNode

/-- `__k_fs_tmpfs_read` to the address `buffer`, of a file whose page directory is `mappings`. -/
def kFsTmpfsRead (node : TmpfsNode) (mappings : ℕ) (supply : Supply)
    (node_size offset size buffer : ℕ) (k : ReadContext) :
    Result (ℕ × ReadContext) :=
  if size = 0 then pure (0,k)
  else if node_size < offset then pure (0,k)
  else do
    let size := readSize node_size offset size
    let full_blocks := size/TMPFS_BLOCK_SIZE
    let part_size := size%TMPFS_BLOCK_SIZE
    let block_offset := offset/TMPFS_BLOCK_SIZE
    let part_offset := offset%TMPFS_BLOCK_SIZE
    supply.malloc size
    let prev := k.directory
    let k := (k.kMalloc size).kMemPagingSetPageDirectory mappings
    match ← node.readBlocks block_offset full_blocks 0 part_offset [] with
    | .inl value => pure (value,k)
    | .inr copied => do
      let block ← node.slot (block_offset+full_blocks)
      if block = 0 then pure (full_blocks*TMPFS_BLOCK_SIZE,k)
      else do
        let bytes ← node.copyOut block (if full_blocks = 0 then part_offset else 0) part_size
        pure (size,((k.kMemPagingSetPageDirectory prev).memcpy buffer (copied++bytes)).kFree)

def leave (mappings size buffer : ℕ) (k : ReadContext) (r : ReadResult) : ReadContext :=
  if r.restored then k.memcpy buffer r.stored
  else (k.kMalloc size).kMemPagingSetPageDirectory mappings

theorem kFsTmpfsRead_eq (node : TmpfsNode) (mappings : ℕ) (supply : Supply)
    (node_size offset size buffer : ℕ)
    (k : ReadContext) : node.kFsTmpfsRead mappings supply node_size offset size buffer k = (do
      let r ← node.read supply node_size offset size
      pure (r.value,leave mappings (readSize node_size offset size) buffer k r)) := by
  have hnothing : leave mappings (readSize node_size offset size) buffer k ⟨0,[],true⟩ = k := by
    rw [leave,if_pos rfl,ReadContext.memcpy,store_nil]
  rw [kFsTmpfsRead,read]
  split
  · change _ = Except.ok (0,leave mappings (readSize node_size offset size) buffer k ⟨0,[],true⟩)
    rw [hnothing]
    rfl
  · split
    · change _ = Except.ok (0,leave mappings (readSize node_size offset size) buffer k ⟨0,[],true⟩)
      rw [hnothing]
      rfl
    · dsimp only
      cases supply.malloc (readSize node_size offset size) with
      | error e => rfl
      | ok u =>
        simp only [bind,Except.bind]
        cases node.readBlocks (offset/TMPFS_BLOCK_SIZE)
          (readSize node_size offset size/TMPFS_BLOCK_SIZE) 0
            (offset%TMPFS_BLOCK_SIZE) [] with
        | error e => rfl
        | ok r =>
          cases r with
          | inl value => rfl
          | inr copied =>
            simp only [readPart,bind,Except.bind]
            cases node.slot (offset/TMPFS_BLOCK_SIZE+readSize node_size offset
                size/TMPFS_BLOCK_SIZE) with
            | error e => rfl
            | ok block =>
              dsimp only
              split
              · rfl
              · cases node.copyOut block _ (readSize node_size offset size%TMPFS_BLOCK_SIZE) with
                | error e => rfl
                | ok bytes => rfl

variable (node : TmpfsNode)

def word (i : ℕ) : ℕ := node.blocks.elim 0 fun words => words i

/-- The byte at place `x` of the file. -/
def fileByte : Mem := fun x => node.mappings (node.word (x/TMPFS_BLOCK_SIZE)%W32+x%TMPFS_BLOCK_SIZE)

/-- The byte that a read copies to place `x` of its buffer. In the first block it starts
`part_offset` words from the block's address, and in the others at that address. -/
def copiedByte (block_offset part_offset : ℕ) : Mem := fun x =>
  node.mappings ((node.word (block_offset+x/TMPFS_BLOCK_SIZE)+4*(if x < TMPFS_BLOCK_SIZE then
    part_offset else 0))%W32+
    x%TMPFS_BLOCK_SIZE)

/-- There is nothing to read, or the file has the blocks of the read and the one behind them, and
the bytes that are copied are those that were asked for. -/
def Readable (node_size offset size : ℕ) : Prop :=
  size = 0 ∨ node_size < offset ∨
    (∀ i ≤ readSize node_size offset size/TMPFS_BLOCK_SIZE,
      node.word (offset/TMPFS_BLOCK_SIZE+i) ≠ 0) ∧ ∀ x < readSize node_size offset size,
        node.copiedByte (offset/TMPFS_BLOCK_SIZE) (offset%TMPFS_BLOCK_SIZE) x =
        node.fileByte (offset+x)

variable {node}

end TmpfsNode
end ScalesOS
