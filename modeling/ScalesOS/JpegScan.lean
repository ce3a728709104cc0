import ScalesOS.JpegBits

/-!
# The scan

Which scans `parse_data` decodes: the components must be there, the picture must consist of whole
blocks and fit into what is allocated for it, and each matrix must start with a code word.
-/

namespace ScalesOS
namespace Jpeg

open ExactRuns

variable {data : List Byte} {start p k : ℕ} {jpeg : Internal}
    {color : Idct → Idct → Idct → ℕ → BitVec 32}

/-- The component `i` is there, and names one of the tables. -/
def Internal.Mapped (jpeg : Internal) (i : Fin 3) : Prop :=
  ∃ map, jpeg.quantMappings i = some map ∧ map.qtbId.toNat < 8

theorem quantOf_exactly (jpeg : Internal) (i : Fin 3) :
    Exactly Panics (jpeg.Mapped i) (jpeg.quantOf i) fun _ => True := by
  rw [Internal.quantOf,Internal.Mapped]
  cases hmap : jpeg.quantMappings i with
  | none => exact .error (by simp) trivial
  | some map =>
    dsimp only
    split
    · rename_i hid
      exact .ok ⟨map,rfl,hid⟩ trivial
    · rename_i hid
      exact .error (by simpa using hid) trivial

def Internal.Few (jpeg : Internal) : Prop := ∀ hdr, (jpeg.huffmanTables hdr).Few

section Units

variable (data : List Byte) (start : ℕ) (jpeg : Internal)

/-- Where the matrix at `p` ends that is coded with the tables `idx` and `16+idx`. -/
def unitEnd (idx : Byte) (p : ℕ) : ℕ :=
  matrixEnd data start (jpeg.huffmanTables idx) (jpeg.huffmanTables (16+idx)) p

/-- A code word starts at `p`, and the bits of the matrix can be taken. -/
def UnitFits (idx : Byte) (p : ℕ) : Prop :=
  0 ≤ (codeAt data start (jpeg.huffmanTables idx) p).1 ∧
    Whole data start p (unitEnd data start jpeg idx p)

/-- Where the block at `p` ends: its luminance and its two colour differences. -/
def blockEnd (p : ℕ) : ℕ := unitEnd data start jpeg 1
    (unitEnd data start jpeg 1 (unitEnd data start jpeg 0 p))

def BlockFits (p : ℕ) : Prop :=
  UnitFits data start jpeg 0 p ∧ UnitFits data start jpeg 1 (unitEnd data start jpeg 0 p) ∧
    UnitFits data start jpeg 1 (unitEnd data start jpeg 1 (unitEnd data start jpeg 0 p))

/-- Where the block `k` starts. -/
def blockStart : ℕ → ℕ
  | 0 => 0
  | k+1 => blockEnd data start jpeg (blockStart k)

end Units

/-- All pixels of the block `(y,x)` are among the first `size` ones. -/
def Inside (w size : ℕ) (block : ℕ × ℕ) : Prop :=
  ∀ c ∈ cells, (block.2*8+c.2+(block.1*8+c.1)*w)%W32 < size

theorem drawMatrix_exactly (w y x : ℕ) (l cb cr : Idct) (pixels : Pixels) :
    Exactly Panics (Inside w pixels.size (y,x)) (drawMatrix color w x y l cb cr pixels) (·.size =
      pixels.size) := by
  have hcell (k : ℕ) (c : ℕ × ℕ) (d : Pixels) (hd : d.size = pixels.size) :
      Exactly Panics ((x*8+c.2+(y*8+c.1)*w)%W32 < pixels.size)
        (d.set ((x*8+c.2+(y*8+c.1)*w)%W32) (color l cb cr (c.2+8*c.1)))
        (·.size = pixels.size) := by
    rw [← hd]
    exact (Exactly.ite trivial).imp fun a ha => by rw [ha]
  refine (Exactly.foldlM (I:=fun _ (d : Pixels) => d.size = pixels.size) hcell cells 0 rfl).congr
    ⟨fun h c hc => ?_,fun h i hi => ?_⟩
  · obtain ⟨i,hi,rfl⟩ := List.mem_iff_getElem.mp hc
    exact h i hi
  · exact h _ (List.getElem_mem hi)

theorem unit_exactly (hfew : jpeg.Few) (idx : Byte) (quant : Fin 64 → Byte)
    (old : BitVec 32) (p : ℕ) :
    Exactly Panics (UnitFits data start jpeg idx p)
      (buildMatrix jpeg (streamOf data start p) idx quant old)
      (fun a => a.2.2 = streamOf data start (unitEnd data start jpeg idx p)) :=
  buildMatrix_exactly data start (hfew idx) (hfew (16+idx)) quant old p

theorem scanBlock_exactly (hfew : jpeg.Few) {scan : Scan} (hbs : scan.bs = streamOf data start p)
    (block : ℕ × ℕ) :
    Exactly Panics ((∀ i, jpeg.Mapped i) ∧ BlockFits data start jpeg p ∧
      Inside jpeg.w scan.data.size block)
      (scanBlock color jpeg scan block)
      (fun s => s.bs = streamOf data start (blockEnd data start jpeg p) ∧
        s.data.size = scan.data.size) := by
  rw [scanBlock,hbs]
  refine ((quantOf_exactly jpeg 0).bind fun quant₀ _ =>
    (unit_exactly hfew 0 quant₀ scan.lum p).bind fun a ha => ?_).congr
    (P:=jpeg.Mapped 0 ∧ UnitFits data start jpeg 0 p ∧ jpeg.Mapped 1 ∧
      UnitFits data start jpeg 1 (unitEnd data start jpeg 0 p) ∧
      jpeg.Mapped 2 ∧ UnitFits data start jpeg 1
      (unitEnd data start jpeg 1 (unitEnd data start jpeg 0 p)) ∧
      Inside jpeg.w scan.data.size block)
    ⟨fun ⟨h0,u0,h1,u1,h2,u2,hin⟩ => ⟨fun i => match i with | 0 => h0 | 1 => h1 | 2 => h2,
      ⟨u0,u1,u2⟩,hin⟩,fun ⟨hm,⟨u0,u1,u2⟩,hin⟩ => ⟨hm 0,u0,hm 1,u1,hm 2,u2,hin⟩⟩
  obtain ⟨matL,lum,bs⟩ := a
  obtain rfl : bs = _ := ha
  refine (quantOf_exactly jpeg 1).bind fun quant₁ _ =>
    (unit_exactly hfew 1 quant₁ scan.cbd _).bind fun a ha => ?_
  obtain ⟨matCb,cbd,bs⟩ := a
  obtain rfl : bs = _ := ha
  refine (quantOf_exactly jpeg 2).bind fun quant₂ _ =>
    (unit_exactly hfew 1 quant₂ scan.crd _).bind fun a ha => ?_
  obtain ⟨matCr,crd,bs⟩ := a
  obtain rfl : bs = _ := ha
  exact ((drawMatrix_exactly jpeg.w block.1 block.2 matL matCb matCr scan.data).bind fun a ha =>
    show Exactly _ True _ _ from .ok trivial ⟨rfl,ha⟩).congr (and_iff_left trivial)

def blockCount (jpeg : Internal) : ℕ := blocksOf jpeg.h*blocksOf jpeg.w

@[simp] theorem blockOrder_length (jpeg : Internal) :
    (blockOrder jpeg).length = blockCount jpeg := by
  simp [blockOrder,blockCount,List.length_flatMap]

theorem mem_blockOrder {y x : ℕ} : (y,x) ∈ blockOrder jpeg ↔
    y < blocksOf jpeg.h ∧ x < blocksOf jpeg.w := by simp [blockOrder]

theorem mem_cells {yy xx : ℕ} : (yy,xx) ∈ cells ↔ yy < 8 ∧ xx < 8 := by simp [cells]

/-- The picture consists of whole blocks and is not larger than what is allocated for it. -/
def Whole8 (w h : ℕ) : Prop := 8 ∣ w ∧ 8 ∣ h ∧ w*h < 2^30

theorem blocksOf_eight (n : ℕ) : blocksOf (8*n) = n := by
  rw [blocksOf,Nat.mul_div_cancel_left n (by decide),Nat.mul_mod_right,if_pos rfl,Nat.add_zero]

theorem le_blocksOf (n : ℕ) : n ≤ 8*blocksOf n := by
  rw [blocksOf]
  split <;> omega

theorem blocksOf_le {n : ℕ} (hn : n < 65536) : 8*blocksOf n ≤ 65536 := by
  rw [blocksOf]
  split <;> omega

theorem inside_of_whole8 {bw bh y x : ℕ} (hfit : 8*bw*(8*bh) < 2^30) (hy : y < bh) (hx : x < bw) :
    Inside (8*bw) (8*bw*(8*bh)*4%W32/4) (y,x) := by
  rintro ⟨yy,xx⟩ hc
  obtain ⟨hyy,hxx⟩ := mem_cells.mp hc
  have hrows : (y*8+yy+1)*(8*bw) ≤ 8*bh*(8*bw) := Nat.mul_le_mul_right _ (by omega)
  rw [Nat.mul_comm (8*bh),Nat.add_mul,Nat.one_mul] at hrows
  simp only [W32]
  generalize 8*bw*(8*bh) = area at *
  generalize (y*8+yy)*(8*bw) = row at *
  omega

theorem whole8_of_inside {w h : ℕ} (hw : w < 65536) (hh : h < 65536) (hw0 : blocksOf w ≠ 0)
    (hh0 : blocksOf h ≠ 0)
    (hin : Inside w (w*h*4%W32/4) (blocksOf h-1,blocksOf w-1)) : Whole8 w h := by
  have hlast := hin (7,7) (mem_cells.mpr ⟨by decide,by decide⟩)
  have hwide := le_blocksOf w
  have hhigh := le_blocksOf h
  have hwide' := blocksOf_le hw
  have hhigh' := blocksOf_le hh
  have hx : (blocksOf w-1)*8+7 = 8*blocksOf w-1 := by omega
  have hy : (blocksOf h-1)*8+7 = 8*blocksOf h-1 := by omega
  simp only [hx,hy] at hlast
  have hbound : (8*blocksOf h-1)*w ≤ 65535*65535 := Nat.mul_le_mul (by omega) (by omega)
  rw [Nat.mod_eq_of_lt (by simp only [W32]; omega)] at hlast
  have hrows : 8*blocksOf h = h := by
    by_contra hne
    have hle : h*w ≤ (8*blocksOf h-1)*w := Nat.mul_le_mul_right w (by omega)
    rw [Nat.mul_comm h w] at hle
    simp only [W32] at hlast
    omega
  rw [hrows,Nat.sub_mul,Nat.one_mul,Nat.mul_comm h w] at hlast
  have hle : w ≤ w*h := Nat.le_mul_of_pos_right w (by omega)
  simp only [W32] at hlast
  have hcolumns : 8*blocksOf w = w := by omega
  exact ⟨⟨_,hcolumns.symm⟩,⟨_,hrows.symm⟩,by omega⟩

/-- The blocks lie inside the allocated pixels exactly if they make up the whole picture. -/
theorem inside_iff (hw : jpeg.w < 65536) (hh : jpeg.h < 65536) (hblocks : blockCount jpeg ≠ 0) :
    (∀ block ∈ blockOrder jpeg, Inside jpeg.w (Pixels.calloc jpeg.w jpeg.h).size block) ↔
    Whole8 jpeg.w jpeg.h := by
  obtain ⟨hh0,hw0⟩ : blocksOf jpeg.h ≠ 0 ∧ blocksOf jpeg.w ≠ 0 := mul_ne_zero_iff.mp hblocks
  constructor
  · intro hall
    exact whole8_of_inside hw hh hw0 hh0 (hall _ (mem_blockOrder.mpr ⟨by omega,by omega⟩))
  · rintro ⟨⟨bw,hbw⟩,⟨bh,hbh⟩,hfit⟩ ⟨y,x⟩ hblock
    rw [mem_blockOrder,hbw,hbh,blocksOf_eight,blocksOf_eight] at hblock
    rw [hbw,hbh] at hfit ⊢
    exact inside_of_whole8 hfit hblock.1 hblock.2

/-- The scan at `start` is decoded. -/
def ScanFits (data : List Byte) (start : ℕ) (jpeg : Internal) : Prop :=
  blockCount jpeg = 0 ∨ ((∀ i, jpeg.Mapped i) ∧ Whole8 jpeg.w jpeg.h ∧
    ∀ k < blockCount jpeg, BlockFits data start jpeg (blockStart data start jpeg k))

theorem parseData_exactly (hfew : jpeg.Few) (hw : jpeg.w < 65536) (hh : jpeg.h < 65536)
    (data : List Byte) (start : ℕ) :
    Exactly Panics (ScanFits data start jpeg) (parseData color jpeg data start) fun _ => True := by
  have hstart :
      (⟨data,data.length,start,0⟩ : BitStream) =
      streamOf data start (blockStart data start jpeg 0) := by
    simp [streamOf,blockStart,bytePos]
  have hrounds := Exactly.foldlM (E:=Panics) (f:=scanBlock color jpeg)
    (I:=fun k s => s.bs = streamOf data start (blockStart data start jpeg k) ∧
      s.data.size = (Pixels.calloc jpeg.w jpeg.h).size)
    (C:=fun k block => (∀ i, jpeg.Mapped i) ∧
      BlockFits data start jpeg (blockStart data start jpeg k) ∧
      Inside jpeg.w (Pixels.calloc jpeg.w jpeg.h).size block)
    (fun k block s hs => hs.2 ▸ scanBlock_exactly hfew hs.1 block)
    (blockOrder jpeg) 0 (s:=⟨0,0,0,_,_⟩) ⟨hstart,rfl⟩
  refine ((hrounds.bind fun a _ => show Exactly _ True _ _ from .ok trivial trivial).congr
    (and_iff_left trivial)).congr ?_
  have hlength := blockOrder_length jpeg
  constructor
  · intro hall
    by_cases hblocks : blockCount jpeg = 0
    · exact .inl hblocks
    · refine .inr ⟨(hall 0 (by omega)).1,(inside_iff hw hh hblocks).mp fun block hblock => ?_,
        fun k hk => ?_⟩
      · obtain ⟨i,hi,rfl⟩ := List.mem_iff_getElem.mp hblock
        exact (hall i hi).2.2
      · have hfits := (hall k (by omega)).2.1
        rwa [Nat.zero_add] at hfits
  · rintro (hblocks | ⟨hmapped,hwhole,hfits⟩) i hi
    · omega
    · rw [Nat.zero_add]
      exact ⟨hmapped,hfits i (by omega),
        (inside_iff hw hh (by omega)).mpr hwhole _ (List.getElem_mem _)⟩

end Jpeg
end ScalesOS
