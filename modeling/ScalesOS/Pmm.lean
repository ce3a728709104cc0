import ScalesOS.BitArray
import ScalesOS.Machine

/-!
# The physical frame allocator

`kernel/src/mem/pmm.c`. A set bit of the bitmap means a free 4 KiB frame. The
bitmap is a growing prefix of memory: words at or above `bitmapSize` exist as
memory but are not part of the allocator. Frame addresses are 64-bit numbers,
while the search and the marking loop of the allocator work on 32-bit ones.
-/

namespace ScalesOS

open BitArray

structure Pmm where
  bitmap : Words
  bitmapSize : ℕ
  firstFreeIndex : ℕ
  allocated : ℕ
  freed : ℕ
  total : ℕ

namespace Pmm

def BITMAP_INDEX (frame : ℕ) : ℕ := frame/0x1000/32
def BITMAP_BIT_NUMBER (frame : ℕ) : ℕ := frame/0x1000%32
def BITMAP_BIT_MASK (frame : ℕ) : BitVec 32 := 1#32 <<< BITMAP_BIT_NUMBER frame

def FRAME (idx bit : ℕ) : ℕ := 0x1000*((idx*32+bit)%W32)

/-- `bitmap[BITMAP_INDEX(frame)] &= ~BITMAP_BIT_MASK(frame)`. -/
def clearFrame (p : Pmm) (frame : ℕ) : Pmm :=
  { p with
    bitmap := Function.update p.bitmap (BITMAP_INDEX frame)
      (p.bitmap (BITMAP_INDEX frame) &&& ~~~BITMAP_BIT_MASK frame) }

def kMemPmmSetAllocated (p : Pmm) (frame : ℕ) : Pmm := p.clearFrame frame

structure Scan where
  foundFrames : ℕ
  frame : ℕ

def scanBit (w : BitVec 32) (i j : ℕ) (s : Scan) : Scan :=
  if w.getLsbD j then
    ⟨s.foundFrames+1,if s.foundFrames = 0 then FRAME i j%W32 else s.frame⟩
  else ⟨0,s.frame⟩

/-- The inner loop over the bits of word `i`; `true` reports the `break`. -/
def scanWord (w : BitVec 32) (frames i : ℕ) : List ℕ → Scan → Scan × Bool
  | [], s => (s,false)
  | j::js, s =>
    let s' := scanBit w i j s
    if frames ≤ s'.foundFrames then (s',true) else scanWord w frames i js s'

def scanWords (bitmap : Words) (frames : ℕ) : List ℕ → Scan → Option Scan
  | [], _ => none
  | i::is, s =>
    match scanWord (bitmap i) frames i (List.range 32) s with
    | (s',true) => some s'
    | (s',false) => scanWords bitmap frames is s'

def markFrames (p : Pmm) (frame : ℕ) : ℕ → Pmm
  | 0 => p
  | n+1 => (markFrames p frame n).clearFrame ((frame+n*0x1000)%W32)

/-- `while (first_free_index < bitmap_size && !bitmap[first_free_index])`, where the
first argument is the number of words left. -/
def skipFull (bitmap : Words) : ℕ → ℕ → ℕ
  | 0, i => i
  | n+1, i => if bitmap i = 0#32 then skipFull bitmap n (i+1) else i

def advanceFirstFree (p : Pmm) : Pmm :=
  let i := skipFull p.bitmap (p.bitmapSize-p.firstFreeIndex) p.firstFreeIndex
  let i := if p.bitmapSize ≤ i then 0 else i
  { p with firstFreeIndex := skipFull p.bitmap (p.bitmapSize-i) i }

def outOfMemory (p : Pmm) (frames : ℕ) : String :=
  "Out of physical memory. Tried to allocate " ++ fmtD frames ++ " frames. " ++
    fmtD (p.allocated+W32-p.freed) ++ "/" ++ fmtD p.total

def kMemPmmAllocFrames (p : Pmm) (frames : ℕ) : Result (ℕ × Pmm) :=
  if frames = 0 then throw (.panic "Tried to allocate invalid amount of frames.")
  else if p.bitmapSize ≤ p.firstFreeIndex then throw (.panic (p.outOfMemory frames))
  else
    match scanWords p.bitmap frames
        (List.range' p.firstFreeIndex (p.bitmapSize-p.firstFreeIndex)) ⟨0,0⟩ with
    | some s =>
      let p := advanceFirstFree (markFrames p s.frame frames)
      pure (s.frame,{ p with allocated := (p.allocated+frames)%W32 })
    | none => throw (.panic (p.outOfMemory frames))

def kMemPmmIsAllocated (p : Pmm) (frame : ℕ) : Bool :=
  let index := BITMAP_INDEX frame%W32
  if p.bitmapSize ≤ index then false else p.bitmap index &&& BITMAP_BIT_MASK frame == 0#32

/-- `while (index >= bitmap_size)`, run as often as the index is ahead. -/
def growBitmap (p : Pmm) : ℕ → Pmm
  | 0 => p
  | n+1 =>
    growBitmap { p with
      bitmap := Function.update p.bitmap p.bitmapSize 0#32
      bitmapSize := p.bitmapSize+1 } n

/-- The loop of `k_mem_pmm_free` up to the 64-bit bound; the number of frames left
bounds the iterations. -/
def freeLoop (bound : ℕ) : ℕ → ℕ → Pmm → Pmm
  | 0, _, p => p
  | n+1, f, p =>
    if f < bound then
      let index := BITMAP_INDEX f%W32
      let p := growBitmap p (index+1-p.bitmapSize)
      if kMemPmmIsAllocated p f then
        freeLoop bound n (f+0x1000) { p with
          bitmap := Function.update p.bitmap index (p.bitmap index ||| BITMAP_BIT_MASK f)
          freed := (p.freed+1)%W32
          firstFreeIndex := if index < p.firstFreeIndex then index else p.firstFreeIndex }
      else p
    else p

def kMemPmmFree (p : Pmm) (frame size : ℕ) : Pmm :=
  if frame%0x1000 ≠ 0 then p
  else freeLoop ((frame+0x1000*size)%W64) size frame p

def kMemPmmMarkFrame (p : Pmm) (frame : ℕ) : Pmm := kMemPmmFree p frame 1

end Pmm
end ScalesOS
