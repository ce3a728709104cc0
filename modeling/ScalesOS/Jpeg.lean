import ScalesOS.Machine

/-!
# The JPEG decoder

`jpeg_decode` with everything it indexes: the segments of the file, the tables they fill,
the bit stream and the pixels. A pointer into the file is what remains of it, and an access
outside the file or a table stops the run. The floating point sums are a parameter.
-/

namespace ScalesOS
namespace Jpeg

abbrev Byte := BitVec 8

/-- `*(uint8_t*)(data+i)`, where the file ends with `data`. -/
def readByte (data : List Byte) (i : ℕ) : Result Byte :=
  match data[i]? with
  | some byte => pure byte
  | none => throw (.panic "read outside the input")

/-- `memcpy(_,data+i,n)`. -/
def copyBytes (data : List Byte) (i n : ℕ) : Result (List Byte) :=
  if i+n ≤ data.length then pure ((data.drop i).take n) else throw (.panic "read outside the input")

/-- `*(uint16_t*)(data+i)` after `__change_endian`. -/
def readWord (data : List Byte) (i : ℕ) : Result (BitVec 16) := do
  let high ← readByte data i
  let low ← readByte data (i+1)
  pure (high++low)

structure HuffmanTable where
  lengths : Fin 16 → Byte
  elements : Fin 256 → Byte

structure QuantMapping where
  id : Byte
  samp : Byte
  qtbId : Byte

/-- What `calloc` returned: the number of whole pixels and what they hold. -/
structure Pixels where
  size : ℕ
  colour : ℕ → BitVec 32

structure Internal where
  huffmanTables : Byte → HuffmanTable
  quant : Fin 8 → Fin 64 → Byte
  quantMappings : Fin 3 → Option QuantMapping
  w : ℕ
  h : ℕ
  data : Option Pixels

/-- `calloc(1,sizeof(__jpeg_internal))` -/
def Internal.zero : Internal :=
  ⟨fun _ => ⟨fun _ => 0,fun _ => 0⟩,fun _ _ => 0,fun _ => none,0,0,none⟩

/-- `memcpy(states->quant[index],_,64)` -/
def Internal.setQuant (states : Internal) (index : ℕ) (bytes : List Byte) : Result Internal :=
  if h : index < 8 then
    pure { states with quant := Function.update states.quant ⟨index,h⟩ fun i => bytes.getD i 0 }
  else throw (.panic "quantisation table outside the array")

/-- The loop of `parse_quant_tables`; `data` moves on by 65. -/
def quantLoop : ℕ → List Byte → ℤ → Internal → Result Internal
  | fuel,data,l,states =>
    if 0 < l then
      match fuel with
      | 0 => throw .loop
      | fuel+1 => do
        let index ← readByte data 0
        let bytes ← copyBytes data 1 64
        let states ← states.setQuant (index &&& 0xF).toNat bytes
        quantLoop fuel (data.drop 65) (l-65) states
    else pure states

def parseQuantTables (states : Internal) (data : List Byte) (len : ℕ) : Result Internal :=
  quantLoop len data len states

/-- `states->quant_mappings[i] = map` -/
def Internal.setMapping (states : Internal) (i : ℕ) (map : QuantMapping) : Result Internal :=
  if h : i < 3 then
    pure { states with quantMappings := Function.update states.quantMappings ⟨i,h⟩ (some map) }
  else throw (.panic "component outside the array")

/-- The loop of `parse_dct` over the components that are left, from the component `i` on. -/
def mappingLoop (data : List Byte) : ℕ → ℕ → Internal → Result Internal
  | 0,_,states => pure states
  | n+1,i,states => do
    let id ← readByte data (6+i*3)
    let samp ← readByte data (6+i*3+1)
    let qtbId ← readByte data (6+i*3+2)
    let states ← states.setMapping i ⟨id,samp,qtbId⟩
    mappingLoop data n (i+1) states

def parseDct (states : Internal) (data : List Byte) : Result Internal := do
  let w ← readWord data 3
  let h ← readWord data 1
  let components ← readByte data 5
  mappingLoop data components.toNat 0 { states with w := w.toNat, h := h.toNat }

/-- The table with `bytes` from the symbol `o` on. -/
def HuffmanTable.patch (table : HuffmanTable) (o : ℕ) (bytes : List Byte) : HuffmanTable :=
  { table with
    elements := fun i => if o ≤ i ∧ i < o+bytes.length then bytes.getD (i-o) 0
      else table.elements i }

/-- `memcpy(&elements[o],_,l)` -/
def HuffmanTable.setElements (table : HuffmanTable) (o : ℕ) (bytes : List Byte) :
    Result HuffmanTable :=
  if o+bytes.length ≤ 256 then pure (table.patch o bytes)
  else throw (.panic "symbol outside the table")

def elementsLoop (data : List Byte) : List Byte → ℕ → ℕ → ℤ → HuffmanTable →
    Result (ℕ × ℤ × HuffmanTable)
  | [],_,offset,llen,table => pure (offset,llen,table)
  | l::lengths,o,offset,llen,table => do
    let bytes ← copyBytes data offset l.toNat
    let table ← table.setElements o bytes
    elementsLoop data lengths (o+l.toNat) (offset+l.toNat) (llen-l.toNat) table

/-- The loop of `parse_huffman`. -/
def huffmanLoop (data : List Byte) : ℕ → ℕ → ℤ → Internal → Result Internal
  | fuel,offset,llen,states =>
    if 0 < llen then
      match fuel with
      | 0 => throw .loop
      | fuel+1 => do
        let hdr ← readByte data offset
        let lengths ← copyBytes data (offset+1) 16
        let table := { states.huffmanTables hdr with lengths := fun i => lengths.getD i 0 }
        let (offset,llen,table) ← elementsLoop data lengths 0 (offset+17) (llen-17) table
        huffmanLoop data fuel offset llen
          { states with huffmanTables := Function.update states.huffmanTables hdr table }
    else pure states

def parseHuffman (states : Internal) (data : List Byte) (len : ℕ) : Result Internal :=
  huffmanLoop data len 0 len states

structure BitStream where
  data : List Byte
  len : ℕ
  byte : ℕ
  bit : ℕ

def getBit (stream : BitStream) : Result (Bool × BitStream) :=
  if stream.len ≤ stream.byte then pure (false,stream) else do
    let byte ← readByte stream.data stream.byte
    let bit := byte.getLsbD (7-stream.bit)
    if 8 ≤ stream.bit+1 then
      if byte = 0xFF then do
        let next ← readByte stream.data (stream.byte+1)
        if next ≠ 0 then pure (bit,{ stream with bit := 0, byte := stream.len })
        else pure (bit,{ stream with bit := 0, byte := stream.byte+2 })
      else pure (bit,{ stream with bit := 0, byte := stream.byte+1 })
    else pure (bit,{ stream with bit := stream.bit+1 })

/-- The loop of `get_bitn`. -/
def bitLoop : ℕ → BitVec 32 → BitStream → Result (BitVec 32 × BitStream)
  | 0,val,stream => pure (val,stream)
  | n+1,val,stream => do
    let (bit,stream) ← getBit stream
    bitLoop n (val*2+BitVec.ofNat 32 bit.toNat) stream

def getBitn (stream : BitStream) (l : ℤ) : Result (BitVec 32 × BitStream) :=
  if l < 0 then throw (.panic "negative bit count") else bitLoop l.toNat 0 stream

/-- `table->elements[i]` -/
def HuffmanTable.element (table : HuffmanTable) (i : ℤ) : Result Byte :=
  if h : 0 ≤ i ∧ i < 256 then pure (table.elements ⟨i.toNat,by omega⟩)
  else throw (.panic "symbol outside the table")

theorem element_ok {table : HuffmanTable} {i : ℕ} (h : i < 256) :
    table.element i = .ok (table.elements ⟨i,h⟩) := by
  rw [HuffmanTable.element,dif_pos (by omega)]
  rfl

/-- The loop of `huffman_get_code` over the lengths that are left. -/
def codeLoop (table : HuffmanTable) : List Byte → ℤ → ℤ → ℤ → BitStream → Result (ℤ × BitStream)
  | [],_,_,_,stream => pure (-1,stream)
  | l::lengths,val,off,ini,stream => do
    let (bit,stream) ← getBit stream
    let val := val*2+bit.toNat
    if 0 < l.toNat then
      if val-ini < l.toNat then do
        let element ← table.element (off+val-ini)
        pure (element.toNat,stream)
      else codeLoop table lengths val (off+l.toNat) ((ini+l.toNat)*2) stream
    else codeLoop table lengths val off (ini*2) stream

def huffmanGetCode (table : HuffmanTable) (stream : BitStream) : Result (ℤ × BitStream) :=
  codeLoop table (List.ofFn table.lengths) 0 0 0 stream

/-- One round of the loop; the number so far is never below the first one of its length. -/
theorem codeLoop_cons {table : HuffmanTable} {l : Byte} {lengths : List Byte} {val off ini : ℕ}
    (stream : BitStream) (hstart : ini ≤ 2*val) :
    codeLoop table (l::lengths) val off ini stream = getBit stream >>= fun next =>
      if 2*val+next.1.toNat < ini+l.toNat then
        table.element ((off+(2*val+next.1.toNat-ini) : ℕ) : ℤ) >>= fun element =>
          pure ((element.toNat : ℤ),next.2)
      else codeLoop table lengths ((2*val+next.1.toNat : ℕ) : ℤ) ((off+l.toNat : ℕ) : ℤ)
        ((2*(ini+l.toNat) : ℕ) : ℤ) next.2 := by
  rw [codeLoop]
  congr 1
  funext next
  have hval : (val : ℤ)*2+(next.1.toNat : ℤ) = ((2*val+next.1.toNat : ℕ) : ℤ) := by omega
  simp only [hval]
  by_cases hfound : 2*val+next.1.toNat < ini+l.toNat
  · have hindex :
      (off : ℤ)+((2*val+next.1.toNat : ℕ) : ℤ)-ini = ((off+(2*val+next.1.toNat-ini) : ℕ) : ℤ) := by
        omega
    rw [if_pos hfound,if_pos (by omega),if_pos (by omega),hindex]
  · rw [if_neg hfound]
    split
    · have hoff : (off : ℤ)+(l.toNat : ℤ) = ((off+l.toNat : ℕ) : ℤ) := by omega
      have hini : ((ini : ℤ)+(l.toNat : ℤ))*2 = ((2*(ini+l.toNat) : ℕ) : ℤ) := by omega
      rw [if_neg (by omega),hoff,hini]
    · rename_i hzero
      have hl : l.toNat = 0 := by omega
      have hini : (ini : ℤ)*2 = ((2*(ini+0) : ℕ) : ℤ) := by omega
      rw [hl,hini,Nat.add_zero,Nat.add_zero]

def huffmanDecode (code : ℤ) (bits : BitVec 32) : BitVec 32 :=
  let l : BitVec 32 := 1 <<< ((code-1)%32).toNat
  if l.sle bits then bits else bits-(2*l-1)

def zigzag : List ℕ :=
  [0,1,8,16,9,2,3,10,17,24,32,25,18,11,4,5,12,19,26,33,40,48,41,34,27,20,13,6,7,14,21,28,
    35,42,49,56,57,50,43,36,29,22,15,23,30,37,44,51,58,59,52,45,38,31,39,46,53,60,61,54,47,55,62,63]

/-- `idct`: the coefficients that were added, each with its row and column of `precalc_table`. -/
abbrev Idct := List (ℕ × ℕ × BitVec 32)

def addIdc (self : Idct) (n m : ℕ) (coeff : BitVec 32) : Result Idct :=
  if n < 8 ∧ m < 8 then pure (self++[(n,m,coeff)]) else throw (.panic "cosine outside the table")

def addZigzag (self : Idct) (zi : ℕ) (coeff : BitVec 32) : Result Idct :=
  if 64 ≤ zi then pure self else
    match zigzag[zi]? with
    | some i => addIdc self (i &&& 0x7) (i >>> 3) coeff
    | none => throw (.panic "zigzag outside the table")

/-- `quant[l]` -/
def quantAt (quant : Fin 64 → Byte) (l : ℕ) : Result (BitVec 32) :=
  if h : l < 64 then pure ((quant ⟨l,h⟩).setWidth 32) else throw (.panic "quant outside the table")

/-- The loop of `build_matrix` over the coefficients from `l` on. -/
def coefficientLoop (table : HuffmanTable) (quant : Fin 64 → Byte) :
    ℕ → ℕ → Idct → BitStream → Result (Idct × BitStream)
  | fuel,l,i,bs =>
    if l < 64 then
      match fuel with
      | 0 => throw .loop
      | fuel+1 => do
        let (code,bs) ← huffmanGetCode table bs
        if code ≤ 0 then pure (i,bs) else do
          let l := if 15 < code then l+(code.toNat >>> 4) else l
          let code : ℤ := if 15 < code then ↑(code.toNat &&& 0xF) else code
          let (bits,bs) ← getBitn bs code
          if l < 64 then do
            let q ← quantAt quant l
            let i ← addZigzag i l (huffmanDecode code bits*q)
            coefficientLoop table quant fuel (l+1) i bs
          else coefficientLoop table quant fuel l i bs
    else pure (i,bs)

/-- `build_matrix`: the matrix and what `outcoeff` is set to. -/
def buildMatrix (jpeg : Internal) (bs : BitStream) (idx : Byte) (quant : Fin 64 → Byte)
    (oldcoeff : BitVec 32) : Result (Idct × BitVec 32 × BitStream) := do
  let (code,bs) ← huffmanGetCode (jpeg.huffmanTables idx) bs
  let (bits,bs) ← getBitn bs code
  let dccoeff := huffmanDecode code bits+oldcoeff
  let q ← quantAt quant 0
  let i ← addZigzag [] 0 (dccoeff*q)
  let (i,bs) ← coefficientLoop (jpeg.huffmanTables (16+idx)) quant 64 1 i bs
  pure (i,dccoeff,bs)

/-- `jpeg->quant[jpeg->quant_mappings[i]->qtb_id]` -/
def Internal.quantOf (jpeg : Internal) (i : Fin 3) : Result (Fin 64 → Byte) :=
  match jpeg.quantMappings i with
  | none => throw (.panic "NULL component")
  | some map =>
    if h : map.qtbId.toNat < 8 then pure (jpeg.quant ⟨map.qtbId.toNat,h⟩)
    else throw (.panic "quantisation table outside the array")

/-- `data[i] = c` -/
def Pixels.set (data : Pixels) (i : ℕ) (c : BitVec 32) : Result Pixels :=
  if i < data.size then pure { data with colour := Function.update data.colour i c }
  else throw (.panic "pixel outside the image")

/-- The places of the two loops of `draw_matrix`, `yy` before `xx`. -/
def cells : List (ℕ × ℕ) := (List.range 8).flatMap fun yy => (List.range 8).map fun xx => (yy,xx)

/-- `draw_matrix`; the colour of a place comes from the three matrices. -/
def drawMatrix (color : Idct → Idct → Idct → ℕ → BitVec 32) (w x y : ℕ) (l cb cr : Idct)
    (data : Pixels) :
    Result Pixels :=
  cells.foldlM (fun data c => data.set ((x*8+c.2+(y*8+c.1)*w)%W32) (color l cb cr (c.2+8*c.1))) data

/-- What the loops of `parse_data` carry from block to block. -/
structure Scan where
  lum : BitVec 32
  cbd : BitVec 32
  crd : BitVec 32
  bs : BitStream
  data : Pixels

/-- The body of the two loops of `parse_data`. -/
def scanBlock (color : Idct → Idct → Idct → ℕ → BitVec 32) (jpeg : Internal) (scan : Scan)
    (block : ℕ × ℕ) :
    Result Scan := do
  let quant ← jpeg.quantOf 0
  let (matL,lum,bs) ← buildMatrix jpeg scan.bs 0 quant scan.lum
  let quant ← jpeg.quantOf 1
  let (matCb,cbd,bs) ← buildMatrix jpeg bs 1 quant scan.cbd
  let quant ← jpeg.quantOf 2
  let (matCr,crd,bs) ← buildMatrix jpeg bs 1 quant scan.crd
  let data ← drawMatrix color jpeg.w block.2 block.1 matL matCb matCr scan.data
  pure ⟨lum,cbd,crd,bs,data⟩

/-- `n/8+!!(n&0x7)` -/
def blocksOf (n : ℕ) : ℕ := n/8+if n%8 = 0 then 0 else 1

/-- The blocks in the order of the two loops of `parse_data`, `y` before `x`. -/
def blockOrder (jpeg : Internal) : List (ℕ × ℕ) :=
  (List.range (blocksOf jpeg.h)).flatMap fun y => (List.range (blocksOf jpeg.w)).map fun x => (y,x)

/-- `calloc(1,w*h*4)` -/
def Pixels.calloc (w h : ℕ) : Pixels := ⟨w*h*4%W32/4,fun _ => 0⟩

def parseData (color : Idct → Idct → Idct → ℕ → BitVec 32) (jpeg : Internal)
    (data : List Byte) (len : ℕ) :
    Result Internal := do
  let scan ← (blockOrder jpeg).foldlM (scanBlock color jpeg) ⟨0,0,0,⟨data,data.length,len,0⟩,
    Pixels.calloc jpeg.w jpeg.h⟩
  pure { jpeg with data := some scan.data }

/-- The loop of `jpeg_decode` from the offset on. -/
def decodeLoop (color : Idct → Idct → Idct → ℕ → BitVec 32) (data : List Byte) :
    ℕ → ℕ → Internal → Result Internal
  | fuel,offset,jpeg =>
    if offset < data.length then
      match fuel with
      | 0 => throw .loop
      | fuel+1 => do
        let header ← readWord data offset
        if header = 0xffd8 then decodeLoop color data fuel (offset+2) jpeg
        else if header = 0xffd9 then pure jpeg
        else do
          let length ← readWord data (offset+2)
          let length := (length-2).toNat
          let offset := offset+4
          if header = 0xffda then parseData color jpeg (data.drop offset) length
          else do
            let jpeg ←
              if header = 0xffdb then parseQuantTables jpeg (data.drop offset) length
              else if header = 0xffc0 then parseDct jpeg (data.drop offset)
              else if header = 0xffc4 then parseHuffman jpeg (data.drop offset) length
              else pure jpeg
            decodeLoop color data fuel (offset+length) jpeg
    else pure jpeg

def jpegDecode (color : Idct → Idct → Idct → ℕ → BitVec 32) (data : List Byte) : Result Internal :=
  decodeLoop color data data.length 0 Internal.zero

end Jpeg
end ScalesOS
