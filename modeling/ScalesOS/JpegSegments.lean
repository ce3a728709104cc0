import ScalesOS.HuffmanDecoding
import ScalesOS.JpegScan

/-!
# The segments in front of the scan

Which segments are read without leaving the file or the tables, and what they store.
-/

namespace ScalesOS
namespace Jpeg

open ExactRuns

variable {data : List Byte}

theorem copyBytes_exactly (data : List Byte) (i n : ℕ) :
    Exactly Panics (i+n ≤ data.length) (copyBytes data i n)
    (fun a => a = (data.drop i).take n ∧ i+n ≤ data.length) := by
  rw [copyBytes]
  split
  · rename_i h
    exact .ok h ⟨rfl,h⟩
  · rename_i h
    exact .error h trivial

/-- The word at `i`. -/
def wordAt (data : List Byte) (i : ℕ) : BitVec 16 := data.getD i 0++data.getD (i+1) 0

theorem readWord_exactly (data : List Byte) (i : ℕ) :
    Exactly Panics (i+1 < data.length) (readWord data i) (· = wordAt data i) := by
  refine ((readByte_exactly data i).bind fun a ha => (readByte_exactly data (i+1)).bind fun b hb =>
    show Exactly _ True _ _ from .ok trivial ?_).congr ⟨fun h => h.2.1,fun h =>
      ⟨by omega,h,trivial⟩⟩
  rw [ha,hb]
  rfl

def QuantFits (data : List Byte) (len : ℤ) : Prop :=
  ∀ j : ℕ, (j*65 : ℤ) < len → j*65+65 ≤ data.length ∧ (data.getD (j*65) 0 &&& 0xF).toNat < 8

theorem quantFits_cons {len : ℤ} (hlen : 0 < len) : QuantFits data len ↔
    (65 ≤ data.length ∧ (data.getD 0 0 &&& 0xF).toNat < 8) ∧ QuantFits (data.drop 65) (len-65) := by
  have hget (j : ℕ) : (data.drop 65).getD (j*65) 0 = data.getD ((j+1)*65) 0 := by
    rw [List.getD_eq_getElem?_getD,List.getD_eq_getElem?_getD,List.getElem?_drop]
    congr 2
    omega
  constructor
  · intro h
    refine ⟨by simpa using h 0 (by simpa using hlen),fun j hj => ?_⟩
    obtain ⟨hlong,hplace⟩ := h (j+1) (by push_cast; omega)
    exact ⟨by rw [List.length_drop]; omega,by rwa [hget]⟩
  · rintro ⟨hfirst,hrest⟩ j hj
    cases j with
    | zero => simpa using hfirst
    | succ j =>
      obtain ⟨hlong,hplace⟩ := hrest j (by push_cast at hj; omega)
      rw [List.length_drop] at hlong
      exact ⟨by omega,by rwa [hget] at hplace⟩

theorem setQuant_exactly (states : Internal) (index : ℕ) (bytes : List Byte) :
    Exactly Panics (index < 8) (states.setQuant index bytes) (fun s => ∃ q,
      s = { states with quant := q }) := by
  rw [Internal.setQuant]
  split
  · rename_i h
    exact .ok h ⟨_,rfl⟩
  · rename_i h
    exact .error h trivial

theorem quantLoop_exactly {fuel : ℕ} {l : ℤ} (hfuel : l ≤ fuel) (states : Internal) :
    Exactly Panics (QuantFits data l) (quantLoop fuel data l states) (fun s => ∃ q,
      s = { states with quant := q }) := by
  induction fuel generalizing data l states with
  | zero =>
    rw [quantLoop,if_neg (by omega)]
    exact .ok (fun j hj => by omega) ⟨_,rfl⟩
  | succ fuel ih =>
    rw [quantLoop]
    by_cases hl : 0 < l
    · rw [if_pos hl]
      refine Exactly.congr (P:=0 < data.length ∧ 1+64 ≤ data.length ∧
        (data.getD 0 0 &&& 0xF).toNat < 8 ∧ QuantFits (data.drop 65) (l-65))
        ((readByte_exactly data 0).bind fun index hindex =>
          (copyBytes_exactly data 1 64).bind fun bytes _ => ?_)
        (Iff.trans ?_ (quantFits_cons hl).symm)
      · subst hindex
        refine (setQuant_exactly states _ bytes).bind fun s hs => ?_
        obtain ⟨q,rfl⟩ := hs
        exact (ih (by push_cast at hfuel; omega) _).imp fun t ⟨q',ht⟩ => ⟨q',ht⟩
      · exact ⟨fun ⟨_,hlong,hplace,hrest⟩ => ⟨⟨hlong,hplace⟩,hrest⟩,fun ⟨⟨hlong,hplace⟩,hrest⟩ =>
          ⟨by omega,hlong,hplace,hrest⟩⟩
    · rw [if_neg hl]
      exact .ok (fun j hj => by omega) ⟨_,rfl⟩

def DctFits (data : List Byte) : Prop :=
  (data.getD 5 0).toNat ≤ 3 ∧ 6+3*(data.getD 5 0).toNat ≤ data.length

/-- The component `i` of the segment. -/
def mappingAt (data : List Byte) (i : ℕ) : QuantMapping :=
  ⟨data.getD (6+i*3) 0,data.getD (6+i*3+1) 0,data.getD (6+i*3+2) 0⟩

def Internal.storeDct (states : Internal) (data : List Byte) : Internal :=
  { states with
    w := (wordAt data 3).toNat
    h := (wordAt data 1).toNat
    quantMappings := fun i => if i.1 < (data.getD 5 0).toNat then some (mappingAt data i)
      else states.quantMappings i }

theorem setMapping_exactly (states : Internal) (i : ℕ) (map : QuantMapping) :
    Exactly Panics (i < 3) (states.setMapping i map)
      (· = { states with quantMappings := fun j => if j.1 = i then some map
        else states.quantMappings j }) := by
  rw [Internal.setMapping]
  split
  · rename_i h
    refine .ok h ?_
    congr 1
    funext j
    by_cases hj : j.1 = i
    · obtain rfl : j = ⟨i,h⟩ := Fin.ext hj
      rw [Function.update_self,if_pos rfl]
    · rw [Function.update_of_ne (fun h => hj (congrArg Fin.val h)),if_neg hj]
  · rename_i h
    exact .error h trivial

theorem mappingLoop_exactly (n : ℕ) {i : ℕ} (states : Internal) :
    Exactly Panics (∀ j, i ≤ j → j < i+n → 6+j*3+2 < data.length ∧
      j < 3) (mappingLoop data n i states)
      (· = { states with quantMappings := fun j =>
          if i ≤ j.1 ∧ j.1 < i+n then some (mappingAt data j) else states.quantMappings j }) := by
  induction n generalizing i states with
  | zero =>
    have hsame :
      (fun j : Fin 3 => if i ≤ j.1 ∧ j.1 < i+0 then some (mappingAt data j)
        else states.quantMappings j) =
        states.quantMappings := by
      funext j
      rw [if_neg (by omega)]
    refine .ok (fun j hj hlt => by omega) ?_
    rw [hsame]
  | succ n ih =>
    rw [mappingLoop]
    refine Exactly.congr (P:=6+i*3 < data.length ∧ 6+i*3+1 < data.length ∧
      6+i*3+2 < data.length ∧ i < 3 ∧
        ∀ j, i+1 ≤ j → j < i+1+n → 6+j*3+2 < data.length ∧ j < 3) ?_ ?_
    · refine (readByte_exactly data _).bind fun a ha => (readByte_exactly data _).bind fun b hb =>
        (readByte_exactly data _).bind fun c hc =>
        (setMapping_exactly states i ⟨a,b,c⟩).bind fun s hs => ?_
      subst ha hb hc hs
      refine (ih _).imp fun t ht => ht.trans ?_
      congr 1
      funext j
      dsimp only
      by_cases hj : j.1 = i
      · rw [if_neg (by omega),if_pos hj,if_pos (by omega),← hj]
        rfl
      · by_cases hin : i+1 ≤ j.1 ∧ j.1 < i+1+n
        · rw [if_pos hin,if_pos (by omega)]
        · rw [if_neg hin,if_neg hj,if_neg (by omega)]
    · constructor
      · rintro ⟨-,-,hlong,hi,hrest⟩ j hj hlt
        rcases Nat.eq_or_lt_of_le hj with rfl | hgt
        · exact ⟨hlong,hi⟩
        · exact hrest j hgt (by omega)
      · intro h
        obtain ⟨hlong,hi⟩ := h i le_rfl (by omega)
        exact ⟨by omega,by omega,hlong,hi,fun j hj hlt => h j (by omega) (by omega)⟩

theorem parseDct_exactly (states : Internal) (data : List Byte) :
    Exactly Panics (DctFits data) (parseDct states data) (· = states.storeDct data) := by
  rw [parseDct]
  refine Exactly.congr (P:=3+1 < data.length ∧ 1+1 < data.length ∧ 5 < data.length ∧
      ∀ j, 0 ≤ j → j < 0+(data.getD 5 0).toNat → 6+j*3+2 < data.length ∧ j < 3) ?_ ?_
  · refine (readWord_exactly data 3).bind fun w hw => (readWord_exactly data 1).bind fun h hh =>
      (readByte_exactly data 5).bind fun n hn => ?_
    subst hw hh hn
    refine (mappingLoop_exactly _ _).imp fun t ht => ht.trans ?_
    simp only [Internal.storeDct,Nat.zero_le,Nat.zero_add,true_and]
  · rw [DctFits]
    generalize (data.getD 5 0).toNat = n
    constructor
    · rintro ⟨-,-,hlong,hall⟩
      have hfew : n ≤ 3 := by
        by_contra hmany
        exact absurd (hall 3 (by omega) (by omega)).2 (by omega)
      rcases Nat.eq_zero_or_pos n with rfl | hn
      · exact ⟨hfew,by omega⟩
      · have hlast := (hall (n-1) (by omega) (by omega)).1
        exact ⟨hfew,by omega⟩
    · rintro ⟨hfew,hlong⟩
      exact ⟨by omega,by omega,by omega,fun j _ hj => ⟨by omega,by omega⟩⟩

/-- The lengths of the table at `offset`. -/
def lengthsAt (data : List Byte) (offset : ℕ) : List Byte := (data.drop (offset+1)).take 16

def symbolsAt (data : List Byte) (offset : ℕ) : ℕ := ((lengthsAt data offset).map BitVec.toNat).sum

/-- The tables from `offset` on lie in the file and have at most 256 symbols each. -/
def TablesFit (data : List Byte) : ℕ → ℕ → ℤ → Prop
  | 0,_,_ => True
  | fuel+1,offset,llen => 0 < llen → offset+17+symbolsAt data offset ≤ data.length ∧
      symbolsAt data offset ≤ 256 ∧
      TablesFit data fuel (offset+17+symbolsAt data offset) (llen-17-symbolsAt data offset)

/-- The table at `offset`, over what was in its place. -/
def tableAt (data : List Byte) (offset : ℕ) (old : HuffmanTable) : HuffmanTable where
  lengths := fun i => (lengthsAt data offset).getD i 0
  elements := (old.patch 0 ((data.drop (offset+17)).take (symbolsAt data offset))).elements

def storedTables (data : List Byte) : ℕ → ℕ → ℤ → (Byte → HuffmanTable) → Byte → HuffmanTable
  | 0,_,_,tables => tables
  | fuel+1,offset,llen,tables =>
    if 0 < llen then
      storedTables data fuel (offset+17+symbolsAt data offset) (llen-17-symbolsAt data offset)
        (Function.update tables (data.getD offset 0)
          (tableAt data offset (tables (data.getD offset 0))))
    else tables

theorem elementsLoop_exactly (lengths : List Byte) {o offset : ℕ} (llen : ℤ)
    (table : HuffmanTable) (ho : o ≤ 256) (hoffset : offset ≤ data.length) :
    Exactly Panics (offset+(lengths.map BitVec.toNat).sum ≤ data.length ∧
      o+(lengths.map BitVec.toNat).sum ≤ 256)
      (elementsLoop data lengths o offset llen table)
      (· = (offset+(lengths.map BitVec.toNat).sum,llen-(lengths.map BitVec.toNat).sum,
        table.patch o ((data.drop offset).take (lengths.map BitVec.toNat).sum))) := by
  induction lengths generalizing o offset llen table with
  | nil =>
    refine .ok ⟨hoffset,ho⟩ ?_
    simp [patch_nil]
  | cons l lengths ih =>
    rw [elementsLoop]
    simp only [List.map_cons,List.sum_cons]
    generalize hsum : (lengths.map BitVec.toNat).sum = sum at *
    refine Exactly.congr (P:=offset+l.toNat ≤ data.length ∧ o+l.toNat ≤ 256 ∧
      (offset+l.toNat+sum ≤ data.length ∧ o+l.toNat+sum ≤ 256))
      ?_ (by omega)
    refine (copyBytes_exactly data offset l.toNat).bind fun bytes hbytes => ?_
    obtain ⟨rfl,hin⟩ := hbytes
    have hlength : ((data.drop offset).take l.toNat).length = l.toNat := by
      rw [List.length_take,List.length_drop]
      omega
    have hset :
      Exactly Panics (o+l.toNat ≤ 256) (table.setElements o ((data.drop offset).take l.toNat))
        (fun t => t = table.patch o ((data.drop offset).take l.toNat) ∧ o+l.toNat ≤ 256) := by
      rw [HuffmanTable.setElements,hlength]
      split
      · rename_i h
        exact .ok h ⟨rfl,h⟩
      · rename_i h
        exact .error h trivial
    refine hset.bind fun t ht => ?_
    obtain ⟨rfl,hroom⟩ := ht
    refine (ih (llen-l.toNat) _ hroom hin).imp fun a ha => ha.trans ?_
    have hpatch :=
      patch_append table o ((data.drop offset).take l.toNat) ((data.drop (offset+l.toNat)).take sum)
    rw [hlength] at hpatch
    rw [hpatch,← List.drop_drop,← List.take_add]
    simp only [Prod.mk.injEq,and_true]
    push_cast
    exact ⟨by omega,by omega⟩

theorem huffmanLoop_exactly {fuel offset : ℕ} {llen : ℤ} (hfuel : llen ≤ fuel) (states : Internal) :
    Exactly Panics (TablesFit data fuel offset llen) (huffmanLoop data fuel offset llen states)
      (· = { states with huffmanTables := storedTables data fuel offset llen states.huffmanTables
        }) := by
  induction fuel generalizing offset llen states with
  | zero =>
    rw [huffmanLoop,if_neg (by omega)]
    exact .ok trivial rfl
  | succ fuel ih =>
    rw [huffmanLoop]
    by_cases hlen : 0 < llen
    · rw [if_pos hlen]
      refine Exactly.congr (P:=offset < data.length ∧ offset+1+16 ≤ data.length ∧
          (offset+17+symbolsAt data offset ≤ data.length ∧ 0+symbolsAt data offset ≤ 256) ∧
          TablesFit data fuel (offset+17+symbolsAt data offset)
          (llen-17-symbolsAt data offset)) ?_ ?_
      · refine (readByte_exactly data offset).bind fun hdr hhdr =>
          (copyBytes_exactly data (offset+1) 16).bind fun lengths hlengths => ?_
        obtain ⟨rfl,hin⟩ := hlengths
        subst hhdr
        refine (elementsLoop_exactly (lengthsAt data offset) (llen-17) _ (Nat.zero_le _) (by
          omega)).bind fun a ha => ?_
        subst ha
        refine (ih (by push_cast at hfuel; omega) _).imp fun t ht => ht.trans ?_
        rw [storedTables,if_pos hlen]
        rfl
      · constructor
        · rintro ⟨-,-,⟨hlong,hfew⟩,hrest⟩ -
          exact ⟨hlong,by omega,hrest⟩
        · intro h
          obtain ⟨hlong,hfew,hrest⟩ := h hlen
          exact ⟨by omega,by omega,⟨hlong,by omega⟩,hrest⟩
    · rw [if_neg hlen]
      refine .ok (fun h => absurd h hlen) ?_
      rw [storedTables,if_neg hlen]

theorem tableAt_few {offset : ℕ} (hlong : offset+17 ≤ data.length)
    (hfew : symbolsAt data offset ≤ 256) (old : HuffmanTable) :
    (tableAt data offset old).Few := by
  have hlength : (lengthsAt data offset).length = 16 := by
    rw [lengthsAt,List.length_take,List.length_drop]
    omega
  have hcounts : List.ofFn (tableAt data offset old).lengths = lengthsAt data offset := by
    refine List.ext_getElem (by rw [List.length_ofFn,hlength]) fun i hi hi' => ?_
    rw [List.getElem_ofFn]
    simp only [tableAt,List.getD_eq_getElem?_getD,List.getElem?_eq_getElem hi',Option.getD_some]
  rw [HuffmanTable.Few,HuffmanTable.counts,hcounts]
  exact hfew

theorem storedTables_few {fuel offset : ℕ} {llen : ℤ} {tables : Byte → HuffmanTable}
    (hfits : TablesFit data fuel offset llen) (h : ∀ hdr, (tables hdr).Few) (hdr : Byte) :
    (storedTables data fuel offset llen tables hdr).Few := by
  induction fuel generalizing offset llen tables with
  | zero => exact h hdr
  | succ fuel ih =>
    rw [storedTables]
    split
    · rename_i hlen
      obtain ⟨hlong,hfew,hrest⟩ := hfits hlen
      refine ih hrest fun hdr' => ?_
      by_cases hsame : hdr' = data.getD offset 0
      · rw [hsame,Function.update_self]
        exact tableAt_few (by omega) hfew _
      · rw [Function.update_of_ne hsame]
        exact h hdr'
    · exact h hdr

def SegmentFits (header : BitVec 16) (data : List Byte) (length : ℕ) : Prop :=
  if header = 0xffdb then QuantFits data length
  else if header = 0xffc0 then DctFits data
  else if header = 0xffc4 then TablesFit data length 0 length
  else True

def Internal.storeSegment (jpeg : Internal) (header : BitVec 16) (data : List Byte)
    (length : ℕ) : Internal :=
  if header = 0xffc0 then jpeg.storeDct data
  else if header = 0xffc4 then
    { jpeg with huffmanTables := storedTables data length 0 length jpeg.huffmanTables }
  else jpeg

/-- The segments from `offset` on, behind those that stored `jpeg`. -/
def SegmentsFit (data : List Byte) : ℕ → ℕ → Internal → Prop
  | 0,_,_ => True
  | fuel+1,offset,jpeg => offset < data.length → offset+1 < data.length ∧
      if wordAt data offset = 0xffd8 then SegmentsFit data fuel (offset+2) jpeg
      else if wordAt data offset = 0xffd9 then True
      else offset+3 < data.length ∧
        if wordAt data offset = 0xffda then
        ScanFits (data.drop (offset+4)) (wordAt data (offset+2)-2).toNat jpeg
        else SegmentFits (wordAt data offset) (data.drop (offset+4))
          (wordAt data (offset+2)-2).toNat ∧
          SegmentsFit data fuel (offset+4+(wordAt data (offset+2)-2).toNat)
            (jpeg.storeSegment (wordAt data offset) (data.drop (offset+4))
              (wordAt data (offset+2)-2).toNat)

def FileFits (data : List Byte) : Prop := SegmentsFit data data.length 0 .zero

/-- The dispatch of `jpeg_decode`. -/
def parseSegment (header : BitVec 16) (jpeg : Internal) (data : List Byte) (length : ℕ) :
    Result Internal :=
  if header = 0xffdb then parseQuantTables jpeg data length
  else if header = 0xffc0 then parseDct jpeg data
  else if header = 0xffc4 then parseHuffman jpeg data length
  else pure jpeg

theorem parseSegment_bind {α : Type} (header : BitVec 16) (jpeg : Internal) (data : List Byte)
    (length : ℕ) (k : Internal → Result α) :
    (parseSegment header jpeg data length >>= k) =
      if header = 0xffdb then parseQuantTables jpeg data length >>= k
      else if header = 0xffc0 then parseDct jpeg data >>= k
      else if header = 0xffc4 then parseHuffman jpeg data length >>= k
      else pure jpeg >>= k := by
  rw [parseSegment]
  split_ifs <;> rfl

/-- What holds of the data of the decoder behind any segment. -/
structure Internal.Sound (jpeg : Internal) : Prop where
  few : jpeg.Few
  w : jpeg.w < 65536
  h : jpeg.h < 65536

theorem parseSegment_exactly (header : BitVec 16) (jpeg : Internal) (q : Fin 8 → Fin 64 → Byte)
    (data : List Byte) (length : ℕ) :
    Exactly Panics (SegmentFits header data length)
      (parseSegment header { jpeg with quant := q } data length)
      (fun s => ∃ q', s = { jpeg.storeSegment header data length with quant := q' }) := by
  rw [SegmentFits,parseSegment,Internal.storeSegment]
  split
  · rename_i h
    rw [if_neg (by rw [h]; decide),if_neg (by rw [h]; decide)]
    exact quantLoop_exactly le_rfl _
  · split
    · exact (parseDct_exactly _ data).imp fun s hs => ⟨q,hs⟩
    · split
      · exact (huffmanLoop_exactly le_rfl _).imp fun s hs => ⟨q,hs⟩
      · exact .ok trivial ⟨q,rfl⟩

theorem Internal.Sound.storeSegment {jpeg : Internal} (h : jpeg.Sound) {header : BitVec 16}
    {data : List Byte} {length : ℕ}
    (hfits : SegmentFits header data length) : (jpeg.storeSegment header data length).Sound := by
  rw [Internal.storeSegment]
  split
  · exact ⟨h.few,(wordAt data 3).isLt,(wordAt data 1).isLt⟩
  · split
    · rename_i hdct hhuffman
      rw [SegmentFits,if_neg (by rw [hhuffman]; decide),if_neg hdct,if_pos hhuffman] at hfits
      exact ⟨storedTables_few hfits h.few,h.w,h.h⟩
    · exact h

section
variable {start : ℕ} {jpeg : Internal} (q : Fin 8 → Fin 64 → Byte)

theorem blockStart_quant (k : ℕ) : blockStart data start
    { jpeg with quant := q } k = blockStart data start jpeg k := by
  induction k with
  | zero => rfl
  | succ k ih => exact congrArg (blockEnd data start jpeg) ih

theorem scanFits_quant : ScanFits data start { jpeg with quant := q } ↔
    ScanFits data start jpeg := by
  simp only [ScanFits,blockStart_quant]
  exact Iff.rfl

end

theorem decodeLoop_exactly (color : Idct → Idct → Idct → ℕ → BitVec 32) {fuel offset : ℕ}
    (hfuel : data.length ≤ offset+fuel)
    {jpeg : Internal} (h : jpeg.Sound) (q : Fin 8 → Fin 64 → Byte) :
    Exactly Panics (SegmentsFit data fuel offset jpeg)
        (decodeLoop color data fuel offset { jpeg with quant := q }) fun _ => True := by
  induction fuel generalizing offset jpeg q with
  | zero =>
    rw [decodeLoop,if_neg (by omega)]
    exact .ok trivial trivial
  | succ fuel ih =>
    rw [decodeLoop,SegmentsFit]
    by_cases hin : offset < data.length
    · rw [if_pos hin]
      refine ((readWord_exactly data offset).bind fun header hheader =>
        ?_).congr (imp_iff_right hin).symm
      subst hheader
      by_cases hstart : wordAt data offset = 0xffd8
      · rw [if_pos hstart,if_pos hstart]
        exact ih (by omega) h q
      · rw [if_neg hstart,if_neg hstart]
        by_cases hend : wordAt data offset = 0xffd9
        · rw [if_pos hend,if_pos hend]
          exact .ok trivial trivial
        · rw [if_neg hend,if_neg hend]
          refine (readWord_exactly data (offset+2)).bind fun length hlength => ?_
          subst hlength
          by_cases hdata : wordAt data offset = 0xffda
          · rw [if_pos hdata,if_pos hdata]
            have hfew : Internal.Few { jpeg with quant := q } := h.few
            have hscan :=
              @parseData_exactly { jpeg with quant := q } color hfew h.w h.h (data.drop (offset+4))
              (wordAt data (offset+2)-2).toNat
            exact hscan.congr (scanFits_quant q)
          · rw [if_neg hdata,if_neg hdata]
            dsimp only
            rw [← parseSegment_bind]
            refine (parseSegment_exactly _ jpeg q _ _).known.bind fun s hs => ?_
            obtain ⟨hfits,q',rfl⟩ := hs
            exact ih (by omega) (h.storeSegment hfits) q'
    · rw [if_neg hin]
      exact .ok (fun h => absurd h hin) trivial

/-- The decoder comes to its end for every input, and stays inside the input and its tables
exactly for the files that fit. -/
theorem jpegDecode_ok_iff (color : Idct → Idct → Idct → ℕ → BitVec 32) (data : List Byte) :
    jpegDecode color data ≠ .error .loop ∧ ((∃ jpeg, jpegDecode color data = .ok jpeg) ↔
      FileFits data) := by
  have hsound : Internal.zero.Sound :=
    ⟨fun _ => by simp [HuffmanTable.Few,HuffmanTable.counts,Internal.zero],by decide,by decide⟩
  have h : Exactly Panics (FileFits data) (jpegDecode color data) fun _ => True :=
    decodeLoop_exactly color (by omega) hsound Internal.zero.quant
  exact ⟨fun hloop => h.of_error hloop,h.ok_iff⟩

def fourComponents : List Byte :=
  [0xFF,0xD8,0xFF,0xC0,0,20,8,0,8,0,8,4,1,0x11,0,2,0x11,0,3,0x11,0,4,0x11,0]

/-- The fourth component is stored behind the array. -/
theorem fourComponents_fails : ¬∀ color data, ∃ jpeg, jpegDecode color data = .ok jpeg := by
  intro h
  obtain ⟨jpeg,hjpeg⟩ := h (fun _ _ _ _ => 0) fourComponents
  have hfails :
    jpegDecode (fun _ _ _ _ => 0) fourComponents = .error (.panic "component outside the array") :=
      rfl
  rw [hfails] at hjpeg
  cases hjpeg

end Jpeg
end ScalesOS
