import ScalesOS.CanonicalCodes
import ScalesOS.Jpeg

/-!
# Huffman decoding

The tables that `parse_huffman` stores are canonical codes, and `huffman_get_code` is the
decoder of such a code over a bit stream that skips the byte stuffed behind each `0xFF`.
-/

namespace ScalesOS
namespace Jpeg

open CanonicalCodes

/-- The scan with a zero behind each `0xFF`. -/
def stuff (bytes : List Byte) : List Byte := bytes.flatMap fun b => if b = 0xFF then [b,0] else [b]

/-- The bits of the bytes, the most significant one first. -/
def unpack (bytes : List Byte) : List Bool :=
  bytes.flatMap fun b => (List.range 8).map fun i => b.getLsbD (7-i)

/-- A stream over the stuffed `bytes`, with `p` of their bits behind it. -/
def streamAt (front bytes tail : List Byte) (p : ℕ) : BitStream where
  data := front++stuff bytes++tail
  len := (front++stuff bytes++tail).length
  byte := front.length+(stuff (bytes.take (p/8))).length
  bit := p%8

/-- A segment's table: at most 256 symbols, and counts that leave a code word for each. -/
structure CodeTable where
  counts : List Byte
  symbols : List Byte
  counts_length : counts.length = 16
  symbols_length : symbols.length = (counts.map BitVec.toNat).sum
  few : symbols.length ≤ 256
  kraft : Kraft (counts.map BitVec.toNat)

/-- The code word of the symbol `i`. -/
def CodeTable.code (t : CodeTable) (i : Fin t.symbols.length) : List Bool :=
  (codes 0 0 (t.counts.map BitVec.toNat)).get ⟨i.1,
    by rw [codes_length,← t.symbols_length]; exact i.2⟩

/-- What a segment holds of one table. -/
def segment (hdr : Byte) (t : CodeTable) : List Byte := hdr::(t.counts++t.symbols)

/-- Repeated calls of `huffman_get_code`. -/
def getCodes (table : HuffmanTable) : ℕ → BitStream → Result (List ℤ × BitStream)
  | 0,stream => pure ([],stream)
  | n+1,stream => do
    let (code,stream) ← huffmanGetCode table stream
    let (codes,stream) ← getCodes table n stream
    pure (code::codes,stream)

theorem unpack_length (bytes : List Byte) : (unpack bytes).length = 8*bytes.length := by
  induction bytes with
  | nil => rfl
  | cons b bytes ih =>
    rw [unpack,List.flatMap_cons,← unpack,List.length_append,ih]
    simp
    omega

theorem unpack_getElem? {bytes : List Byte} {p : ℕ} {b : Byte} (h : bytes[p/8]? = some b) :
    (unpack bytes)[p]? = some (b.getLsbD (7-p%8)) := by
  induction bytes generalizing p with
  | nil => simp at h
  | cons x bytes ih =>
    rw [unpack,List.flatMap_cons,← unpack]
    rcases lt_or_ge p 8 with hp | hp
    · have hq : p/8 = 0 := by omega
      rw [hq] at h
      obtain rfl := Option.some.inj h
      rw [List.getElem?_append_left (by simpa using hp),List.getElem?_map,List.getElem?_range hp]
      simp [Nat.mod_eq_of_lt hp]
    · have hq : p/8 = (p-8)/8+1 := by omega
      have hr : (p-8)%8 = p%8 := by omega
      rw [hq,List.getElem?_cons_succ] at h
      rw [List.getElem?_append_right (by simpa using hp)]
      simpa [hr] using ih h

theorem stuff_append (bytes bytes' : List Byte) :
    stuff (bytes++bytes') = stuff bytes++stuff bytes' :=
  List.flatMap_append

theorem stuff_cons (b : Byte) (bytes : List Byte) :
    stuff (b::bytes) = (if b = 0xFF then [b,0] else [b])++stuff bytes := rfl

theorem stuff_split {bytes : List Byte} {k : ℕ} {b : Byte} (h : bytes[k]? = some b) :
    stuff bytes = stuff (bytes.take k)++((if b = 0xFF then [b,0]
      else [b])++stuff (bytes.drop (k+1))) ∧
      stuff (bytes.take (k+1)) = stuff (bytes.take k)++(if b = 0xFF then [b,0] else [b]) := by
  obtain ⟨hk,rfl⟩ := List.getElem?_eq_some_iff.mp h
  constructor
  · conv_lhs => rw [← List.take_append_drop k bytes,List.drop_eq_getElem_cons hk,
      stuff_append,stuff_cons]
  · rw [← List.take_concat_get' bytes k hk,stuff_append,stuff_cons]
    simp [stuff]

theorem readByte_append {data rest : List Byte} {b : Byte} :
    readByte (data++b::rest) data.length = .ok b := by
  simp [readByte,pure,Except.pure]

theorem getBit_streamAt {front bytes tail : List Byte} {p : ℕ} {bit : Bool}
    (h : (unpack bytes)[p]? = some bit) :
    getBit (streamAt front bytes tail p) = .ok (bit,streamAt front bytes tail (p+1)) := by
  have hp : p < 8*bytes.length := by
    rw [← unpack_length]
    exact (List.getElem?_eq_some_iff.mp h).1
  obtain ⟨b,hb⟩ : ∃ b, bytes[p/8]? = some b := ⟨_,List.getElem?_eq_getElem (by omega)⟩
  obtain rfl : b.getLsbD (7-p%8) = bit := Option.some.inj ((unpack_getElem? hb).symm.trans h)
  obtain ⟨hsplit,hnext⟩ := stuff_split hb
  set before := front++stuff (bytes.take (p/8)) with hbefore
  have hbyte : (streamAt front bytes tail p).byte = before.length := by simp [streamAt,hbefore]
  have hdata : (streamAt front bytes tail p).data =
      before++((if b = 0xFF then [b,0] else [b])++(stuff (bytes.drop (p/8+1))++tail)) := by
    simp [streamAt,hsplit,hbefore]
  have hread :
      readByte (streamAt front bytes tail p).data (streamAt front bytes tail p).byte = .ok b := by
    rw [hbyte,hdata]
    split <;> exact readByte_append
  have hinside : ¬ (streamAt front bytes tail p).len ≤ (streamAt front bytes tail p).byte := by
    rw [hbyte]
    change ¬ (streamAt front bytes tail p).data.length ≤ before.length
    rw [hdata]
    split <;> simp
  have hbit : (streamAt front bytes tail p).bit = p%8 := rfl
  rw [getBit,if_neg hinside,hread]
  simp only [bind,Except.bind,hbit]
  rcases eq_or_ne (p%8) 7 with h7 | h7
  · -- the last bit of the byte
    have hq : (p+1)/8 = p/8+1 := by omega
    have hr : (p+1)%8 = 0 := by omega
    rw [if_pos (by omega)]
    by_cases hff : b = 0xFF
    · have hzero :
          readByte (streamAt front bytes tail p).data ((streamAt front bytes tail p).byte+1) =
              .ok 0 := by
        rw [hbyte,hdata,if_pos hff]
        simp [readByte,pure,Except.pure]
      rw [if_pos hff] at hnext
      rw [if_pos hff,hzero]
      simp [streamAt,hq,hr,hnext,pure,Except.pure,Nat.add_assoc]
    · rw [if_neg hff] at hnext
      rw [if_neg hff]
      simp [streamAt,hq,hr,hnext,pure,Except.pure,Nat.add_assoc]
  · have hq : (p+1)/8 = p/8 := by omega
    have hr : (p+1)%8 = p%8+1 := by omega
    rw [if_neg (by omega)]
    simp [streamAt,hq,hr,pure,Except.pure]

variable {front bytes tail : List Byte} {p val off ini i : ℕ} {w rest : List Bool}
    {table : HuffmanTable}

theorem codeLoop_search {lengths : List Byte}
    (hsearch : search (lengths.map BitVec.toNat) val ini off w = some (i,[]))
    (hstart : ini ≤ 2*val) (hi : i < 256) (hbits : (unpack bytes).drop p = w++rest) :
    codeLoop table lengths val off ini (streamAt front bytes tail p) =
      .ok ((table.elements ⟨i,hi⟩).toNat,streamAt front bytes tail (p+w.length)) := by
  induction lengths generalizing val off ini p w with
  | nil => simp [search] at hsearch
  | cons l lengths ih =>
    cases w with
    | nil => simp [search] at hsearch
    | cons b w =>
      rw [List.cons_append] at hbits
      have hp : (unpack bytes)[p]? = some b := by
        rw [← Nat.add_zero p,← List.getElem?_drop,hbits,List.getElem?_cons_zero]
      have hrest : (unpack bytes).drop (p+1) = w++rest := by
        rw [← List.drop_drop,hbits]
        rfl
      rw [List.map_cons,search] at hsearch
      rw [codeLoop_cons _ hstart,getBit_streamAt hp]
      simp only [bind,Except.bind]
      split at hsearch
      · -- the word ends here
        rename_i hfound
        obtain ⟨rfl,rfl⟩ := Prod.mk.inj (Option.some.inj hsearch)
        rw [if_pos hfound,element_ok hi]
        rfl
      · rename_i hmore
        have hlen : p+(b::w).length = p+1+w.length := by
          rw [List.length_cons]
          omega
        rw [if_neg hmore,hlen]
        exact ih hsearch (by omega) hrest

structure Stores (table : HuffmanTable) (t : CodeTable) : Prop where
  lengths : List.ofFn table.lengths = t.counts
  elements : ∀ (i : Fin t.symbols.length) (h : i.1 < 256), table.elements ⟨i,h⟩ = t.symbols[i]

theorem huffmanGetCode_code {t : CodeTable} (hstores : Stores table t) (i : Fin t.symbols.length)
    (hbits : (unpack bytes).drop p = t.code i++rest) :
    huffmanGetCode table (streamAt front bytes tail p) =
      .ok ((t.symbols[i].toNat : ℤ),streamAt front bytes tail (p+(t.code i).length)) := by
  have hi : i.1 < 256 := i.2.trans_le t.few
  have hword : (codes 0 0 (t.counts.map BitVec.toNat))[i.1]? = some (t.code i) :=
    List.getElem?_eq_getElem _
  have hsearch := search_codes 0 [] t.kraft.fits hword
  simp only [List.take_zero,value_nil,Nat.mul_zero,List.drop_zero,List.append_nil,
    Nat.zero_add] at hsearch
  rw [huffmanGetCode,hstores.lengths,← hstores.elements i hi]
  exact codeLoop_search hsearch le_rfl hi hbits

theorem getCodes_message {t : CodeTable} (hstores : Stores table t)
    (message : List (Fin t.symbols.length))
    (hbits : (unpack bytes).drop p = message.flatMap t.code++rest) :
    getCodes table message.length (streamAt front bytes tail p) =
      .ok (message.map fun i => (t.symbols[i].toNat : ℤ),
        streamAt front bytes tail (p+(message.flatMap t.code).length)) := by
  induction message generalizing p with
  | nil => rfl
  | cons i message ih =>
    rw [List.flatMap_cons,List.append_assoc] at hbits
    have hnext : (unpack bytes).drop (p+(t.code i).length) = message.flatMap t.code++rest := by
      rw [← List.drop_drop,hbits,List.drop_left]
    rw [List.length_cons,getCodes,huffmanGetCode_code hstores i hbits]
    simp only [bind,Except.bind,ih hnext]
    simp [pure,Except.pure,Nat.add_assoc]

theorem patch_nil (table : HuffmanTable) (o : ℕ) : table.patch o [] = table := by
  have hempty : ∀ i : ℕ, ¬ (o ≤ i ∧ i < o) := by omega
  simp [HuffmanTable.patch,hempty]

theorem patch_append (table : HuffmanTable) (o : ℕ) (first others : List Byte) :
    (table.patch o first).patch (o+first.length) others = table.patch o (first++others) := by
  simp only [HuffmanTable.patch,List.length_append,List.getD_eq_getElem?_getD]
  congr 1
  funext i
  rcases lt_or_ge i.1 (o+first.length) with hi | hi
  · have hfirst : i.1-o < first.length ∨ ¬ o ≤ i.1 := by omega
    rw [if_neg (by omega)]
    by_cases ho : o ≤ i.1
    · rw [if_pos ⟨ho,hi⟩,if_pos (by omega),List.getElem?_append_left (by omega)]
    · rw [if_neg (by omega),if_neg (by omega)]
  · have hshift : i.1-(o+first.length) = i.1-o-first.length := by omega
    by_cases hend : i.1 < o+first.length+others.length
    · rw [if_pos ⟨hi,hend⟩,if_pos (by omega),List.getElem?_append_right (by omega),hshift]
    · rw [if_neg (by omega),if_neg (by omega),if_neg (by omega)]

theorem copyBytes_append (data bytes rest : List Byte) :
    copyBytes (data++(bytes++rest)) data.length bytes.length = .ok bytes := by
  simp [copyBytes,pure,Except.pure]

/-- The loop over the lengths copies the symbols one length after the other. -/
theorem elementsLoop_symbols {lengths symbols : List Byte} (data rest : List Byte) (o : ℕ)
    (llen : ℤ) (table : HuffmanTable)
    (hlen : symbols.length = (lengths.map BitVec.toNat).sum) (ho : o+symbols.length ≤ 256) :
    elementsLoop (data++(symbols++rest)) lengths o data.length llen table =
      .ok (data.length+symbols.length,llen-symbols.length,table.patch o symbols) := by
  induction lengths generalizing symbols data o llen table with
  | nil =>
    obtain rfl := List.length_eq_zero_iff.mp hlen
    simp [elementsLoop,patch_nil,pure,Except.pure]
  | cons l lengths ih =>
    rw [List.map_cons,List.sum_cons] at hlen
    obtain ⟨first,others,rfl,hfirst⟩ : ∃ first others, symbols = first++others ∧
        first.length = l.toNat :=
      ⟨symbols.take l.toNat,symbols.drop l.toNat,(List.take_append_drop _ _).symm,by simp; omega⟩
    rw [List.length_append] at hlen ho
    have hdata : data++(first++others++rest) = (data++first)++(others++rest) := by simp
    have hcopy : copyBytes (data++(first++others++rest)) data.length l.toNat = .ok first := by
      rw [List.append_assoc first,← hfirst]
      exact copyBytes_append data first (others++rest)
    have hset : table.setElements o first = .ok (table.patch o first) := if_pos (by omega)
    have hothers : others.length = (lengths.map BitVec.toNat).sum := by omega
    have hnext :=
      ih (data++first) (o+first.length) (llen-first.length) (table.patch o first) hothers (by omega)
    rw [← hdata,List.length_append,patch_append] at hnext
    rw [elementsLoop,hcopy]
    simp only [bind,Except.bind,hset,← hfirst,hnext,List.length_append]
    push_cast
    rw [Nat.add_assoc,Int.sub_sub]

/-- The table after `parse_huffman`; what lies behind the symbols stays. -/
def HuffmanTable.store (table : HuffmanTable) (t : CodeTable) : HuffmanTable :=
  { table.patch 0 t.symbols with lengths := fun i => t.counts.getD i 0 }

def Internal.store (states : Internal) (s : Byte × CodeTable) : Internal :=
  { states with
    huffmanTables := Function.update states.huffmanTables s.1
      ((states.huffmanTables s.1).store s.2) }

theorem store_stores (table : HuffmanTable) (t : CodeTable) : Stores (table.store t) t where
  lengths := by
    refine List.ext_getElem (by rw [List.length_ofFn,t.counts_length]) fun i _ hi => ?_
    rw [List.getElem_ofFn]
    simp [HuffmanTable.store,List.getD_eq_getElem?_getD,hi]
  elements i h := by
    have hi := i.2
    simp [HuffmanTable.store,HuffmanTable.patch,List.getD_eq_getElem?_getD]

theorem huffmanLoop_segment {data : List Byte} (rest : List Byte) (fuel : ℕ) {llen : ℤ}
    (states : Internal) (s : Byte × CodeTable) (hlen : 0 < llen) :
    huffmanLoop (data++(segment s.1 s.2++rest)) (fuel+1) data.length llen states =
      huffmanLoop (data++(segment s.1 s.2++rest)) fuel (data.length+(segment s.1 s.2).length)
        (llen-(segment s.1 s.2).length) (states.store s) := by
  obtain ⟨hdr,t⟩ := s
  have hread : readByte (data++(segment hdr t++rest)) data.length = .ok hdr := readByte_append
  have hcounts : data++(segment hdr t++rest) = (data++[hdr])++(t.counts++(t.symbols++rest)) := by
    simp [segment]
  have hsymbols : data++(segment hdr t++rest) = (data++[hdr]++t.counts)++(t.symbols++rest) := by
    simp [segment]
  have hlengths : copyBytes (data++(segment hdr t++rest)) (data.length+1) 16 = .ok t.counts := by
    rw [hcounts,← t.counts_length]
    have h := copyBytes_append (data++[hdr]) t.counts (t.symbols++rest)
    rwa [List.length_append,List.length_singleton] at h
  have helements := fun table =>
    elementsLoop_symbols (data++[hdr]++t.counts) rest 0 (llen-17) table t.symbols_length
    (by have := t.few; omega)
  have hplace : (data++[hdr]++t.counts).length = data.length+17 := by simp [t.counts_length]
  have hsize : (segment hdr t).length = 17+t.symbols.length := by
    simp [segment,t.counts_length]; omega
  rw [← hsymbols,hplace] at helements
  rw [huffmanLoop,if_pos hlen]
  simp only [hread,hlengths,bind,Except.bind,helements]
  rw [hsize]
  push_cast
  rw [Nat.add_assoc,Int.sub_sub]
  rfl

/-- `parse_huffman` stores the tables of a segment one after the other. -/
theorem huffmanLoop_segments (data rest : List Byte) {fuel : ℕ} (tables : List (Byte × CodeTable))
    (states : Internal) (hfuel : tables.length ≤ fuel) :
    huffmanLoop (data++(tables.flatMap (fun s => segment s.1 s.2)++rest)) fuel data.length
        (tables.flatMap fun s => segment s.1 s.2).length states =
      .ok (tables.foldl Internal.store states) := by
  induction tables generalizing data fuel states with
  | nil => cases fuel <;> simp [huffmanLoop,pure,Except.pure]
  | cons s tables ih =>
    obtain ⟨fuel,rfl⟩ : ∃ n, fuel = n+1 := Nat.exists_eq_succ_of_ne_zero (by simp at hfuel; omega)
    have hpos : 0 < (segment s.1 s.2).length := by simp [segment]
    have hnext := ih (data++segment s.1 s.2) (states.store s) (Nat.le_of_succ_le_succ hfuel)
    rw [List.length_append,List.append_assoc] at hnext
    rw [List.flatMap_cons,List.append_assoc,List.length_append,
      huffmanLoop_segment _ _ _ _ (by push_cast; omega)]
    push_cast
    rw [add_sub_cancel_left,hnext]
    rfl

theorem store_huffmanTables (states : Internal) (hdr : Byte) (t : CodeTable) :
    (states.store (hdr,t)).huffmanTables hdr = (states.huffmanTables hdr).store t :=
  Function.update_self _ _ _

theorem foldl_store_other {tables : List (Byte × CodeTable)} {hdr : Byte} (states : Internal)
    (h : ∀ s ∈ tables, s.1 ≠ hdr) :
    (tables.foldl Internal.store states).huffmanTables hdr = states.huffmanTables hdr := by
  induction tables generalizing states with
  | nil => rfl
  | cons s tables ih =>
    rw [List.foldl_cons,ih _ fun t ht => h t (List.mem_cons_of_mem _ ht)]
    exact Function.update_of_ne (h s List.mem_cons_self).symm _ _

theorem segments_length_le (tables : List (Byte × CodeTable)) :
    tables.length ≤ (tables.flatMap fun s => segment s.1 s.2).length := by
  induction tables with
  | nil => exact le_rfl
  | cons s tables ih =>
    rw [List.flatMap_cons,List.length_append,List.length_cons]
    have hpos : 0 < (segment s.1 s.2).length := by simp [segment]
    omega

/-- `parse_huffman` stores the tables of a segment, and the calls of `huffman_get_code` with one
of them return the symbols whose code words are in the stream and stop behind the last of them. -/
theorem huffman_decodes (states : Internal) (before later : List (Byte × CodeTable))
    (hdr : Byte) (t : CodeTable)
    (rest : List Byte) (hlast : ∀ s ∈ later, s.1 ≠ hdr) (message : List (Fin t.symbols.length))
    (front bytes tail : List Byte) (p : ℕ) (padding : List Bool)
    (hbits : (unpack bytes).drop p = message.flatMap t.code++padding) :
    ∃ states', parseHuffman states ((before++(hdr,t)::later).flatMap (fun s =>
      segment s.1 s.2)++rest)
        ((before++(hdr,t)::later).flatMap fun s => segment s.1 s.2).length = .ok states' ∧
      getCodes (states'.huffmanTables hdr) message.length (streamAt front bytes tail p) =
        .ok (message.map fun i => (t.symbols[i].toNat : ℤ),
          streamAt front bytes tail (p+(message.flatMap t.code).length)) := by
  refine ⟨_,huffmanLoop_segments [] rest _ states (segments_length_le _),?_⟩
  refine getCodes_message ?_ message hbits
  rw [List.foldl_append,List.foldl_cons,foldl_store_other _ hlast,store_huffmanTables]
  exact store_stores _ t

def bitTable : CodeTable where
  counts := 2::List.replicate 15 0
  symbols := [3,7]
  counts_length := rfl
  symbols_length := rfl
  few := by decide
  kraft := by decide

/-- The first byte is `0xFF`, behind which a byte is stuffed, and the second one has padding. -/
theorem huffman_decodes_stuffed :
    ∃ states', parseHuffman Internal.zero (segment 0 bitTable) 19 = .ok states' ∧
      getCodes (states'.huffmanTables 0) 10 (streamAt [] [0xFF,0x7F] [] 0) =
        .ok ([7,7,7,7,7,7,7,7,3,7],streamAt [] [0xFF,0x7F] [] 10) :=
  huffman_decodes Internal.zero [] [] 0 bitTable [] (by
    simp) ([1,1,1,1,1,1,1,1,0,1] : List (Fin 2)) [] [0xFF,0x7F] [] 0
    (List.replicate 6 true) (by decide)

end Jpeg
end ScalesOS
