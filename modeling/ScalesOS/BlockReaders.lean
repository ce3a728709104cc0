import ScalesOS.BlockCache
import ScalesOS.Ata

/-! Reads of one volume by several processes. A process that has to read from the device
sleeps in `ata_read` until the next part of what it asked for is there, and other
processes run meanwhile. Reads with readahead share the readahead buffer of the volume. -/
namespace ScalesOS
open ByteMemory Storage

/-- Where a process is in `__ext2_read_block`: outside, or in a device read of `size`
bytes of which `done` are stored, in the readahead buffer or in its own. -/
inductive Reading
  | idle
  | ahead (start_block size done : ℕ)
  | alone (start_block size done : ℕ) (buffer : Mem)

def Reading.isIdle : Reading → Bool
  | .idle => true
  | _ => false

/-- A read that has returned: whose it was, which block, its value, and what it has stored
in the buffer of its caller. -/
structure Delivered where
  pid : ℕ
  block : ℕ
  value : ℕ
  bytes : List (BitVec 8)

structure Readers where
  fs : Ext2Fs
  reading : ℕ → Reading
  delivered : List Delivered

inductive ReadEvent
  | call (pid start_block readahead : ℕ)
  /-- The next part of the device read of a process has arrived, and the process runs. -/
  | part (pid : ℕ)

namespace Readers
variable (s : Readers)

def setReading (pid : ℕ) (reading : Reading) : Readers :=
  {s with reading := Function.update s.reading pid reading}

def deliver (pid block value : ℕ) (bytes : List (BitVec 8)) : Readers where
  fs := s.fs
  reading := Function.update s.reading pid .idle
  delivered := ⟨pid,block,value,bytes⟩::s.delivered

/-- What `__ext2_read_block` does after a device read with readahead. -/
def finishAhead (pid start_block size : ℕ) : Readers :=
  let fs := s.fs.cacheReadahead start_block (s.fs.readaheadBlocks size)
  {s with fs := fs}.deliver pid start_block fs.blockSize (load fs.readahead_buffer 0 fs.blockSize)

def finishAlone (pid start_block size : ℕ) (buffer : Mem) : Readers :=
  let data := load buffer 0 size
  {s with fs := if size = s.fs.blockSize then s.fs.cacheBlock start_block data else s.fs}.deliver
    pid start_block size data

def resumeAhead (pid start_block size done : ℕ) : Readers :=
  if done < size then s.setReading pid (.ahead start_block size done)
  else s.finishAhead pid start_block size

def resumeAlone (pid start_block size done : ℕ) (buffer : Mem) : Readers :=
  if done < size then s.setReading pid (.alone start_block size done buffer)
  else s.finishAlone pid start_block size buffer

/-- `__ext2_read_block` up to the first time it sleeps. -/
def call (pid start_block readahead : ℕ) : Readers :=
  if s.fs.superblock.total_blocks < start_block then s.deliver pid start_block 0 []
  else
    let offset := start_block*s.fs.blockSize%W32
    match s.fs.tryGetCachedBlock start_block with
    | (some bl,fs) => {s with fs := fs}.deliver pid start_block fs.blockSize bl
    | (none,fs) =>
      if readahead ≠ 0 then
        {s with fs := fs}.resumeAhead pid start_block
        (fs.device.available offset (min readahead MAX_READAHEAD)) 0
      else {s with fs := fs}.resumeAlone pid start_block
        (fs.device.available offset fs.blockSize) 0 fun _ => 0

def partSize (size done : ℕ) : ℕ := min Ata.BYTES_PER_PRD (size-done)

def storePart (start_block done n : ℕ) : Readers :=
  let offset := start_block*s.fs.blockSize%W32
  {s with fs := {s.fs with
    readahead_buffer := transfer s.fs.readahead_buffer s.fs.device.byte done (offset+done) n}}

def part (pid : ℕ) : Readers :=
  match s.reading pid with
  | .idle => s
  | .ahead start_block size done =>
    let n := partSize size done
    (s.storePart start_block done n).resumeAhead pid start_block size (done+n)
  | .alone start_block size done buffer =>
    let n := partSize size done
    let offset := start_block*s.fs.blockSize%W32
    s.resumeAlone pid start_block size (done+n)
      (transfer buffer s.fs.device.byte done (offset+done) n)

def step : ReadEvent → Result Readers
  | .call pid start_block readahead => .ok (s.call pid start_block readahead)
  | .part pid => .ok (s.part pid)

/-- A process calls while it is not in a call, for a block of the volume and with a
readahead of whole blocks; a part arrives for a process that waits for it. -/
def May : ReadEvent → Prop
  | .call pid start_block readahead => (s.reading pid).isIdle = true ∧
      start_block < s.fs.superblock.total_blocks ∧ s.fs.blockSize ∣ readahead
  | .part pid => (s.reading pid).isIdle = false

instance (e : ReadEvent) : Decidable (s.May e) := by
  cases e <;> unfold May <;> infer_instance

/-- What a part brings into the readahead buffer differs nowhere from what another process
has already read there and not yet taken out. -/
def Spares (pid start_block size done : ℕ) : Prop :=
  ∀ other block size' done', other ≠ pid → s.reading other = .ahead block size' done' →
    ∀ x, done ≤ x → x < done+partSize size done → x < done' →
      s.fs.device.byte (start_block*s.fs.blockSize+x) = s.fs.device.byte (block*s.fs.blockSize+x)

/-- The condition on a step: a call can be served by the readahead buffer, and a part does
not disturb the readahead of another process. -/
def Undisturbed : ReadEvent → Prop
  | .call _ _ readahead => readahead = 0 ∨ s.fs.blockSize ≤ MAX_READAHEAD
  | .part pid => ∀ start_block size done, s.reading pid = .ahead start_block size done →
      s.Spares pid start_block size done

/-- Nobody reads yet, and nothing is cached. -/
def start (fs : Ext2Fs) : Readers := ⟨fs,fun _ => .idle,[]⟩

/-- Every block that was delivered, and every cached one, is the device's. -/
structure Faithful : Prop where
  delivered : ∀ d ∈ s.delivered, d.value = s.fs.blockSize ∧ d.bytes = s.fs.deviceBlock d.block
  cached : s.fs.BlocksOk

def ReadingOk (fs : Ext2Fs) : Reading → Prop
  | .idle => True
  | .ahead start_block size done => start_block < fs.superblock.total_blocks ∧ fs.blockSize ∣ size ∧
      fs.blockSize ≤ size ∧ done ≤ size ∧
      ∀ x < done, fs.readahead_buffer x = fs.device.byte (start_block*fs.blockSize+x)
  | .alone start_block size done buffer => start_block < fs.superblock.total_blocks ∧
      size = fs.blockSize ∧
      done ≤ size ∧ ∀ x < done, buffer x = fs.device.byte (start_block*fs.blockSize+x)

variable {s : Readers} {fs : Ext2Fs} {pid start_block size done readahead : ℕ}

theorem ReadingOk.congr {gs : Ext2Fs} {reading : Reading} (hsame : Ext2Fs.SameButBlocks fs gs)
    (hbuffer : gs.readahead_buffer = fs.readahead_buffer) (h : ReadingOk fs reading) :
    ReadingOk gs reading := by
  cases reading with
  | idle => exact h
  | ahead start_block size done =>
    rw [ReadingOk,hsame.superblock,hsame.layout.blockSize,hsame.device,hbuffer]
    exact h
  | alone start_block size done buffer =>
    rw [ReadingOk,hsame.superblock,hsame.layout.blockSize,hsame.device]
    exact h

structure InvBut (s : Readers) (pid : ℕ) : Prop where
  image : s.fs.Image
  faithful : s.Faithful
  others : ∀ other, other ≠ pid → ReadingOk s.fs (s.reading other)

structure Inv (s : Readers) : Prop where
  image : s.fs.Image
  faithful : s.Faithful
  reading : ∀ pid, ReadingOk s.fs (s.reading pid)

theorem Inv.but (h : s.Inv) (pid : ℕ) : s.InvBut pid :=
  ⟨h.image,h.faithful,fun other _ => h.reading other⟩

theorem InvBut.setReading (h : s.InvBut pid) {reading : Reading} (hr : ReadingOk s.fs reading) :
    (s.setReading pid reading).Inv := by
  refine ⟨h.image,⟨h.faithful.delivered,h.faithful.cached⟩,?_⟩
  intro other
  change ReadingOk s.fs (Function.update s.reading pid reading other)
  by_cases hother : other = pid
  · rwa [hother,Function.update_self]
  · rw [Function.update_of_ne hother]
    exact h.others other hother

theorem InvBut.deliver (h : s.InvBut pid) (block : ℕ) :
    (s.deliver pid block s.fs.blockSize (s.fs.deviceBlock block)).Inv := by
  refine ⟨h.image,⟨?_,h.faithful.cached⟩,?_⟩
  · intro d hd
    rcases List.mem_cons.mp hd with rfl | hd
    · exact ⟨rfl,rfl⟩
    · exact h.faithful.delivered d hd
  · intro other
    change ReadingOk s.fs (Function.update s.reading pid .idle other)
    by_cases hother : other = pid
    · rw [hother,Function.update_self]
      trivial
    · rw [Function.update_of_ne hother]
      exact h.others other hother

/-- The caches and the readahead buffer may change as long as the reads of the others do
not notice. -/
theorem InvBut.withFs (h : s.InvBut pid) (hsame : Ext2Fs.SameButBlocks s.fs fs) (hok : fs.BlocksOk)
    (hothers : ∀ other, other ≠ pid → ReadingOk fs (s.reading other)) : InvBut
    {s with fs := fs} pid := by
  refine ⟨hsame.layout.image h.image,⟨?_,hok⟩,hothers⟩
  intro d hd
  dsimp only
  rw [hsame.layout.blockSize,hsame.deviceBlock]
  exact h.faithful.delivered d hd

theorem InvBut.withCache (h : s.InvBut pid) (hsame : Ext2Fs.SameButBlocks s.fs fs)
    (hok : fs.BlocksOk)
    (hbuffer : fs.readahead_buffer = s.fs.readahead_buffer) : InvBut {s with fs := fs} pid :=
  h.withFs hsame hok fun other hother => (h.others other hother).congr hsame hbuffer

theorem InvBut.finishAhead (h : s.InvBut pid) (hdvd : s.fs.blockSize ∣ size)
    (hle : s.fs.blockSize ≤ size) (hread : ∀ x < size, s.fs.readahead_buffer x =
      s.fs.device.byte (start_block*s.fs.blockSize+x)) :
    (s.finishAhead pid start_block size).Inv := by
  have hblocks := Ext2Fs.readaheadBlocks_eq hdvd
  have hholds : s.fs.Holds start_block (s.fs.readaheadBlocks size) := by
    intro k hk
    have hend : k*s.fs.blockSize+s.fs.blockSize ≤ size := by
      rw [← Nat.succ_mul]
      exact (Nat.mul_le_mul_right _ hk).trans hblocks.le
    apply List.map_congr_left
    intro i hi
    have hin := List.mem_range.mp hi
    rw [hread _ (by omega),Nat.add_mul,Nat.add_assoc]
  have hpos : 0 < s.fs.readaheadBlocks size := by
    rw [← hblocks] at hle
    exact Nat.pos_of_mul_pos_right (Ext2Fs.blockSize_pos.trans_le hle)
  have hsame := Ext2Fs.cacheReadahead_same s.fs start_block (s.fs.readaheadBlocks size)
  have hbuffer := Ext2Fs.cacheReadahead_buffer s.fs start_block (s.fs.readaheadBlocks size)
  have hfirst := hholds 0 hpos
  rw [Nat.zero_mul,Nat.add_zero] at hfirst
  have hdeliver :=
    (h.withCache hsame (h.faithful.cached.cacheReadahead hholds) hbuffer).deliver start_block
  rw [Readers.finishAhead]
  dsimp only at hdeliver ⊢
  rwa [hbuffer,hsame.layout.blockSize,hfirst,← hsame.deviceBlock,← hsame.layout.blockSize]

theorem InvBut.finishAlone (h : s.InvBut pid) {buffer : Mem}
    (hread : ∀ x < s.fs.blockSize, buffer x = s.fs.device.byte (start_block*s.fs.blockSize+x)) :
    (s.finishAlone pid start_block s.fs.blockSize buffer).Inv := by
  have hdata : load buffer 0 s.fs.blockSize = s.fs.deviceBlock start_block := by
    apply List.map_congr_left
    intro i hi
    rw [Nat.zero_add,hread i (List.mem_range.mp hi)]
  have hsame := Ext2Fs.cacheBlock_same s.fs start_block (s.fs.deviceBlock start_block)
  have hdeliver := (h.withCache hsame h.faithful.cached.cacheBlock rfl).deliver start_block
  rw [Readers.finishAlone,hdata]
  dsimp only at hdeliver ⊢
  rw [if_pos rfl]
  exact hdeliver

theorem InvBut.resumeAhead (h : s.InvBut pid) (hblock : start_block < s.fs.superblock.total_blocks)
    (hdvd : s.fs.blockSize ∣ size) (hle : s.fs.blockSize ≤ size) (hdone : done ≤ size)
    (hread : ∀ x < done, s.fs.readahead_buffer x =
      s.fs.device.byte (start_block*s.fs.blockSize+x)) :
    (s.resumeAhead pid start_block size done).Inv := by
  rw [Readers.resumeAhead]
  split
  · exact h.setReading ⟨hblock,hdvd,hle,hdone,hread⟩
  · rename_i hend
    exact h.finishAhead hdvd hle fun x hx => hread x (by omega)

theorem InvBut.resumeAlone (h : s.InvBut pid) (hblock : start_block < s.fs.superblock.total_blocks)
    (hdone : done ≤ s.fs.blockSize) {buffer : Mem}
    (hread : ∀ x < done, buffer x = s.fs.device.byte (start_block*s.fs.blockSize+x)) :
    (s.resumeAlone pid start_block s.fs.blockSize done buffer).Inv := by
  rw [Readers.resumeAlone]
  split
  · exact h.setReading ⟨hblock,rfl,hdone,hread⟩
  · rename_i hend
    exact h.finishAlone fun x hx => hread x (by omega)

theorem Inv.call (h : s.Inv) (hblock : start_block < s.fs.superblock.total_blocks)
    (hahead : s.fs.Ahead readahead) :
    (s.call pid start_block readahead).Inv := by
  have hsame := Ext2Fs.tryGetCachedBlock_same s.fs start_block
  have hok := h.faithful.cached.of_perm hsame (Ext2Fs.tryGetCachedBlock_perm s.fs start_block)
  have hbuffer := Ext2Fs.tryGetCachedBlock_buffer s.fs start_block
  rw [Readers.call,if_neg (by omega)]
  dsimp only
  rw [h.image.offset_lt hblock.le]
  split
  · rename_i bl gs hget
    rw [hget] at hsame hok hbuffer
    obtain ⟨c_bl,hmem,hnumber,hbl⟩ := Ext2Fs.tryGetCachedBlock_some (congrArg Prod.fst hget)
    have hdevice := h.faithful.cached c_bl hmem
    rw [hnumber,hbl,← hsame.deviceBlock] at hdevice
    rw [hdevice]
    exact ((h.but pid).withCache hsame hok hbuffer).deliver start_block
  · rename_i gs hget
    rw [hget] at hsame hok hbuffer
    have hbut := (h.but pid).withCache hsame hok hbuffer
    have hend := h.image.block_le hblock
    have hnumber : start_block < gs.superblock.total_blocks := by rwa [hsame.superblock]
    split
    · rename_i hpos
      obtain ⟨hdvd,hle⟩ := hahead.capped hpos
      have havailable := h.image.available_dvd start_block hdvd
      have hread :
          s.fs.blockSize ≤ s.fs.device.available (start_block*s.fs.blockSize)
              (min readahead MAX_READAHEAD) := by
        rw [Device.available]
        omega
      rw [hsame.device]
      exact hbut.resumeAhead hnumber (by rwa [hsame.layout.blockSize]) (by
        rwa [hsame.layout.blockSize]) (Nat.zero_le _)
        fun x hx => absurd hx (Nat.not_lt_zero x)
    · have hwhole :
          gs.device.available (start_block*s.fs.blockSize) gs.blockSize = gs.blockSize := by
        rw [hsame.device,hsame.layout.blockSize]
        exact s.fs.device.available_eq hend
      rw [hwhole]
      exact hbut.resumeAlone hnumber (Nat.zero_le _) fun x hx => absurd hx (Nat.not_lt_zero x)

theorem transfer_read {m m' : Mem} {b n : ℕ} (hread : ∀ x < done, m x = m' (b+x)) :
    ∀ x < done+n, transfer m m' done (b+done) n x = m' (b+x) := by
  intro x hx
  rw [transfer]
  split
  · exact congrArg m' (by omega)
  · exact hread x (by omega)

theorem partSize_le (hdone : done ≤ size) : done+partSize size done ≤ size := by
  rw [partSize]
  omega

theorem Inv.storePart (h : s.Inv) (hblock : start_block < s.fs.superblock.total_blocks)
    (hspare : s.Spares pid start_block size done) :
    (s.storePart start_block done (partSize size done)).InvBut pid := by
  have hsame : Ext2Fs.SameButBlocks s.fs (s.storePart start_block done (partSize size done)).fs :=
    ⟨⟨rfl,rfl,rfl⟩,rfl⟩
  apply (h.but pid).withFs hsame (h.faithful.cached.of_perm hsame (.refl _))
  intro other hother
  have hold := h.reading other
  cases hreading : s.reading other with
  | idle => trivial
  | alone block size' done' buffer =>
    rw [hreading] at hold
    exact hold
  | ahead block size' done' =>
    rw [hreading] at hold
    refine ⟨hold.1,hold.2.1,hold.2.2.1,hold.2.2.2.1,?_⟩
    intro x hx
    have hread := hold.2.2.2.2 x hx
    have hsame := hspare other block size' done' hother hreading x
    change transfer s.fs.readahead_buffer s.fs.device.byte done
      (start_block*s.fs.blockSize%W32+done)
      (partSize size done) x = s.fs.device.byte (block*s.fs.blockSize+x)
    rw [h.image.offset_lt hblock.le,transfer]
    split
    · rename_i hin
      exact (congrArg s.fs.device.byte (by omega)).trans (hsame hin.1 hin.2 hx)
    · exact hread

theorem Inv.part (h : s.Inv)
    (hspares : ∀ start_block size done, s.reading pid = .ahead start_block size done →
      s.Spares pid start_block size done) :
    (s.part pid).Inv := by
  have hown := h.reading pid
  rw [Readers.part]
  split
  · exact h
  · rename_i start_block size done hreading
    rw [hreading] at hown
    obtain ⟨hblock,hdvd,hle,hdone,hread⟩ := hown
    have hbut := h.storePart hblock (hspares start_block size done hreading)
    apply hbut.resumeAhead hblock hdvd hle (partSize_le hdone)
    intro x hx
    dsimp only [Readers.storePart]
    rw [h.image.offset_lt hblock.le]
    exact transfer_read hread x hx
  · rename_i start_block size done buffer hreading
    rw [hreading] at hown
    obtain ⟨hblock,rfl,hdone,hread⟩ := hown
    dsimp only
    rw [h.image.offset_lt hblock.le]
    exact (h.but pid).resumeAlone hblock (partSize_le hdone) (transfer_read hread)

theorem Inv.step {e : ReadEvent} {t : Readers} (h : s.Inv) (hmay : s.May e)
    (hundisturbed : s.Undisturbed e) (hstep : s.step e = .ok t) : t.Inv := by
  cases e with
  | call pid start_block readahead =>
    rw [← Except.ok.inj hstep]
    exact h.call hmay.2.1 ⟨hmay.2.2,hundisturbed⟩
  | part pid =>
    rw [← Except.ok.inj hstep]
    exact h.part hundisturbed

theorem start_inv (himage : fs.Image) (hempty : fs.block_cache = []) : (start fs).Inv := by
  refine ⟨himage,⟨fun _ hd => (List.not_mem_nil hd).elim,?_⟩,fun _ => trivial⟩
  intro c_bl hc
  rw [start,hempty] at hc
  cases hc

/-- As long as no step disturbs the readahead of another process, every read delivers the
device's block, and so does the cache. -/
theorem readers_faithful (himage : fs.Image) (hempty : fs.block_cache = []) {t : Readers}
    (hrun : Relation.ReflTransGen (fun s t => ∃ e, (s.May e ∧ s.Undisturbed e) ∧
      s.step e = .ok t) (start fs) t) :
    t.Faithful := by
  have hinv : t.Inv := by
    apply reach_invariant _ (start_inv himage hempty) hrun
    rintro s t h ⟨e,⟨hmay,hundisturbed⟩,hstep⟩
    exact h.step hmay hundisturbed hstep
  exact hinv.faithful

def twoHalves : Ext2Fs where
  superblock := ⟨256,0,8192,8,128,Ext2Superblock.kib_le⟩
  device := ⟨0x40000,fun x => if x < 0x20000 then 1 else 2⟩
  bgds := fun _ => ⟨0,0,0⟩
  inode_cache := []
  block_cache := []
  readahead_buffer := fun _ => 0

theorem twoHalves_image : twoHalves.Image := ⟨by decide,by decide,by decide⟩

/-- The first process reads 128 blocks from block 0 on, in two parts, and the second one
128 blocks from block 128 on. Its first part overwrites that of the first process. -/
def interleaving : List ReadEvent := [.call 1 0 0x20000,.call 2 128 0x20000,.part 1,.part 2,.part 1]

/-- The first process gets another block's bytes. -/
theorem readahead_mixed_up :
    twoHalves.Image ∧ twoHalves.block_cache = [] ∧ ∃ t : Readers,
      Relation.ReflTransGen (fun s t => ∃ e, s.May e ∧ s.step e = .ok t) (start twoHalves) t ∧
      ¬ t.Faithful := by
  refine ⟨twoHalves_image,rfl,?_⟩
  obtain ⟨t,hrun,ht⟩ :
    ∃ t, Relation.ReflTransGen (fun s t => ∃ e, s.May e ∧ s.step e = .ok t) (start twoHalves) t ∧
      (t.delivered.any fun d => d.bytes.head? ≠ (t.fs.deviceBlock d.block).head?) = true :=
    exists_of_runAll _ (show (runAll May step interleaving (start twoHalves)).any _ =
      true by decide +kernel)
  refine ⟨t,hrun,?_⟩
  intro hfaithful
  obtain ⟨d,hd,hbytes⟩ := List.any_eq_true.mp ht
  rw [(hfaithful.delivered d hd).2] at hbytes
  simp at hbytes

theorem spares_alone (h : ∀ other, other ≠ pid → s.reading other = .idle) :
    s.Undisturbed (.part pid) := by
  intro start_block size done _ other block size' done' hother hreading
  rw [h other hother] at hreading
  cases hreading

theorem readers_faithful_alone :
    ((((start twoHalves).call 1 0 0x20000).part 1).part 1).Faithful := by
  have hidle : ∀ other, other ≠ 1 → ((start twoHalves).call 1 0 0x20000).reading other = .idle :=
    fun other hother => Function.update_of_ne hother _ _
  have hidle' : ∀ other, other ≠ 1 →
      (((start twoHalves).call 1 0 0x20000).part 1).reading other = .idle :=
    fun other hother => (Function.update_of_ne hother _ _).trans (hidle other hother)
  apply readers_faithful twoHalves_image rfl
  have hcall : (start twoHalves).May (.call 1 0 0x20000) ∧
      (start twoHalves).Undisturbed (.call 1 0 0x20000) :=
    ⟨by decide +kernel,Or.inr (by decide)⟩
  have hpart : ((start twoHalves).call 1 0 0x20000).May (.part 1) := by decide +kernel
  have hpart' : (((start twoHalves).call 1 0 0x20000).part 1).May (.part 1) := by decide +kernel
  exact ((Relation.ReflTransGen.single ⟨_,hcall,rfl⟩).tail ⟨_,⟨hpart,spares_alone hidle⟩,rfl⟩).tail
    ⟨_,⟨hpart',spares_alone hidle'⟩,rfl⟩

end Readers
end ScalesOS
