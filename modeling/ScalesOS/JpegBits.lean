import ScalesOS.CanonicalCodes
import ScalesOS.ExactRuns
import ScalesOS.Jpeg

/-!
# The bits of a scan

Any bytes are a sequence of bits to the decoder: stuffed bytes are left out, and zeros follow
where the file or the scan ends. Positions in this sequence describe what each function takes,
and the only bit that cannot be taken is the last one of a `0xFF` that ends the file.
-/

namespace ScalesOS
namespace Jpeg

open CanonicalCodes ExactRuns

def Panics : Fault → Prop
  | .panic _ => True
  | .loop => False

section Bits

variable (data : List Byte) (start : ℕ)

/-- Where the byte `k` of the scan lies; the scan ends with the file or in front of a marker. -/
def bytePos : ℕ → ℕ
  | 0 => start
  | k+1 =>
    let b := bytePos k
    if data.length ≤ b then b
    else if data.getD b 0 = 0xFF then if data.getD (b+1) 0 ≠ 0 then data.length else b+2
    else b+1

def bitAt (p : ℕ) : Bool :=
  decide (bytePos data start (p/8) < data.length) &&
    (data.getD (bytePos data start (p/8)) 0).getLsbD (7-p%8)

/-- The bit `p` is the last one of a `0xFF` at the end of the file. -/
def Dangling (p : ℕ) : Prop :=
  p%8 = 7 ∧ bytePos data start (p/8)+1 = data.length ∧ data.getD (bytePos data start (p/8)) 0 = 0xFF

/-- None of the bits from `p` to `q` is the last one of a `0xFF` at the end of the file. -/
def Whole (p q : ℕ) : Prop := ∀ i, p ≤ i → i < q → ¬ Dangling data start i

/-- The stream of a scan with `p` bits behind it. -/
def streamOf (p : ℕ) : BitStream where
  data := data
  len := data.length
  byte := bytePos data start (p/8)
  bit := if bytePos data start (p/8) < data.length then p%8 else 0

/-- The bits from `p` on. -/
def window (p n : ℕ) : List Bool := (List.range n).map fun i => bitAt data start (p+i)

end Bits

variable {data : List Byte} {start p q r : ℕ}

theorem whole_split (hpq : p ≤ q) (hqr : q ≤ r) : Whole data start p r ↔
    Whole data start p q ∧ Whole data start q r := by
  constructor
  · exact fun h => ⟨fun i hi hiq => h i hi (hiq.trans_le hqr),fun i hi => h i (hpq.trans hi)⟩
  · rintro ⟨hleft,hright⟩ i hi hir
    rcases lt_or_ge i q with hiq | hiq
    · exact hleft i hi hiq
    · exact hright i hiq hir

theorem whole_self : Whole data start p p := fun i hi hip => absurd hip (by omega)

theorem whole_one : Whole data start p (p+1) ↔ ¬ Dangling data start p := by
  refine ⟨fun h => h p le_rfl (Nat.lt_succ_self p),fun h i hi hip => ?_⟩
  obtain rfl : i = p := by omega
  exact h

theorem window_succ (p n : ℕ) :
    window data start p (n+1) = bitAt data start p::window data start (p+1) n := by
  rw [window,List.range_succ_eq_map,List.map_cons,List.map_map,window]
  congr 1
  refine List.map_congr_left fun i _ => ?_
  simp [Nat.add_assoc,Nat.add_comm 1 i]

theorem readByte_exactly (data : List Byte) (i : ℕ) :
    Exactly Panics (i < data.length) (readByte data i) (· = data.getD i 0) := by
  rw [readByte]
  rcases lt_or_ge i data.length with hi | hi
  · rw [List.getElem?_eq_getElem hi]
    exact .ok hi (by simp [hi])
  · rw [List.getElem?_eq_none hi]
    exact .error (by omega) trivial

theorem readByte_ok {i : ℕ} (hi : i < data.length) : readByte data i = .ok (data.getD i 0) := by
  rw [readByte,List.getElem?_eq_getElem hi]
  simp [hi,pure,Except.pure]

theorem readByte_error {i : ℕ} (hi : data.length ≤ i) :
    readByte data i = .error (.panic "read outside the input") := by
  rw [readByte,List.getElem?_eq_none hi]
  rfl

theorem bytePos_succ (k : ℕ) (hin : bytePos data start k < data.length) :
    bytePos data start (k+1) =
      if data.getD (bytePos data start k) 0 = 0xFF then
        if data.getD (bytePos data start k+1) 0 ≠ 0 then data.length else bytePos data start k+2
      else bytePos data start k+1 := by
  rw [bytePos,if_neg (by omega)]

theorem streamOf_next (hlast : p%8 = 7) :
    streamOf data start (p+1) = ⟨data,data.length,bytePos data start (p/8+1),0⟩ := by
  have hq : (p+1)/8 = p/8+1 := by omega
  have hr : (p+1)%8 = 0 := by omega
  simp [streamOf,hq,hr]

/-- A call takes the next bit unless it is the last one of a `0xFF` at the end. -/
theorem getBit_exactly (data : List Byte) (start p : ℕ) :
    Exactly Panics (¬ Dangling data start p) (getBit (streamOf data start p))
      (· = (bitAt data start p,streamOf data start (p+1))) := by
  rw [getBit]
  rcases lt_or_ge (bytePos data start (p/8)) data.length with hin | hout
  · have hread : readByte (streamOf data start p).data (streamOf data start p).byte =
        .ok (data.getD (bytePos data start (p/8)) 0) := readByte_ok hin
    have hplace : (streamOf data start p).bit = p%8 := if_pos hin
    have hbit : bitAt data start p = (data.getD (bytePos data start (p/8)) 0).getLsbD (7-p%8) := by
      simp [bitAt,hin]
    have hopen : ¬ (streamOf data start p).len ≤ (streamOf data start p).byte := Nat.not_le.mpr hin
    rw [if_neg hopen,hread]
    simp only [bind,Except.bind,hplace,← hbit]
    rcases eq_or_ne (p%8) 7 with h7 | h7
    · -- the last bit of a byte
      have hstep := bytePos_succ (p/8) hin
      rw [if_pos (by omega),streamOf_next h7]
      by_cases hff : data.getD (bytePos data start (p/8)) 0 = 0xFF
      · rw [if_pos hff] at hstep ⊢
        rcases lt_or_ge (bytePos data start (p/8)+1) data.length with hmore | hend
        · have hnext : readByte (streamOf data start p).data ((streamOf data start p).byte+1) =
              .ok (data.getD (bytePos data start (p/8)+1) 0) := readByte_ok hmore
          rw [hnext,hstep]
          have hfine : ¬ Dangling data start p := fun h => absurd h.2.1 (by omega)
          simp only
          split <;> exact .ok hfine rfl
        · have hnext : readByte (streamOf data start p).data ((streamOf data start p).byte+1) =
              .error (.panic "read outside the input") := readByte_error hend
          rw [hnext]
          exact .error (not_not.mpr ⟨h7,by omega,hff⟩) trivial
      · rw [if_neg hff] at hstep ⊢
        rw [hstep]
        exact .ok (fun h => hff h.2.2) rfl
    · have hq : (p+1)/8 = p/8 := by omega
      have hr : (p+1)%8 = p%8+1 := by omega
      rw [if_neg (by omega)]
      exact .ok (fun h => h7 h.1) (by simp [streamOf,hq,hr,hin])
  · have hnext : bytePos data start ((p+1)/8) = bytePos data start (p/8) := by
      rcases (show (p+1)/8 = p/8 ∨ (p+1)/8 = p/8+1 by omega) with h | h
      · rw [h]
      · rw [h,bytePos,if_pos hout]
    have hclosed : (streamOf data start p).len ≤ (streamOf data start p).byte := hout
    rw [if_pos hclosed]
    refine .ok (fun h => ?_) ?_
    · have := h.2.1
      omega
    · simp [bitAt,streamOf,hnext,Nat.not_lt.mpr hout]

theorem whole_cons (n : ℕ) : Whole data start p (p+(n+1)) ↔
    ¬ Dangling data start p ∧ Whole data start (p+1) (p+1+n) := by
  rw [show p+(n+1) = p+1+n by omega,whole_split (Nat.le_succ p) (Nat.le_add_right _ _),whole_one]

theorem bitLoop_exactly (data : List Byte) (start : ℕ) (n p : ℕ) (val : BitVec 32) :
    Exactly Panics (Whole data start p (p+n)) (bitLoop n val (streamOf data start p))
      (fun a => a.2 = streamOf data start (p+n)) := by
  induction n generalizing p val with
  | zero => exact .ok whole_self rfl
  | succ n ih =>
    rw [bitLoop]
    refine (((getBit_exactly data start p).bind fun a ha =>
      show Exactly _ (Whole data start (p+1) (p+1+n)) _ _ from ?_).congr
      (whole_cons n).symm)
    subst ha
    rw [show p+(n+1) = p+1+n by omega]
    exact ih (p+1) _

/-- The symbol `i` of a table. -/
def HuffmanTable.symbol (table : HuffmanTable) (i : ℕ) : ℤ :=
  if h : i < 256 then (table.elements ⟨i,h⟩).toNat else 0

/-- The code that a search over `n` bits gives, and how many of them it takes. -/
def taken (table : HuffmanTable) (n : ℕ) : Option (ℕ × List Bool) → ℤ × ℕ
  | some (i,rest) => (table.symbol i,n-rest.length)
  | none => (-1,n)

@[simp] theorem window_length (p n : ℕ) : (window data start p n).length = n := by simp [window]

theorem taken_succ {table : HuffmanTable} {counts : List ℕ} {val ini off p n : ℕ}
    (hstart : ini ≤ 2*val) :
    let x := search counts val ini off (window data start p n)
    taken table (n+1) x = ((taken table n x).1,(taken table n x).2+1) := by
  intro x
  cases hx : x with
  | none => rfl
  | some found =>
    obtain ⟨i,rest⟩ := found
    have hrest := (search_bounds hstart hx).2
    rw [window_length] at hrest
    simp only [taken]
    rw [Nat.succ_sub hrest.le]

theorem codeLoop_exactly (data : List Byte) (start : ℕ) (table : HuffmanTable)
    {lengths : List Byte} (p : ℕ) {val off ini : ℕ}
    (hstart : ini ≤ 2*val) (hfew : off+(lengths.map BitVec.toNat).sum ≤ 256) :
    let t :=
      taken table lengths.length
        (search (lengths.map BitVec.toNat) val ini off (window data start p lengths.length))
    Exactly Panics (Whole data start p (p+t.2))
      (codeLoop table lengths val off ini (streamOf data start p))
      (· = (t.1,streamOf data start (p+t.2))) := by
  induction lengths generalizing p val off ini with
  | nil => exact .ok whole_self rfl
  | cons l lengths ih =>
    rw [List.map_cons,List.sum_cons] at hfew
    rw [List.map_cons,List.length_cons,window_succ,search,codeLoop_cons _ hstart]
    split
    · rename_i hfound
      have hi : off+(2*val+(bitAt data start p).toNat-ini) < 256 := by omega
      simp only [taken,window_length,Nat.add_sub_cancel_left,HuffmanTable.symbol,dif_pos hi]
      refine ((getBit_exactly data start p).bind fun a ha => show Exactly _ True _ _ from ?_).congr
        ((and_iff_left trivial).trans whole_one.symm)
      subst ha
      rw [if_pos hfound,element_ok hi]
      exact .ok trivial rfl
    · rename_i hmore
      simp only [taken_succ (show 2*(ini+l.toNat) ≤ 2*(2*val+(bitAt data start p).toNat) by omega)]
      have hrest := @ih (p+1) (2*val+(bitAt data start p).toNat) (off+l.toNat) (2*(ini+l.toNat))
        (by omega) (by omega)
      refine ((getBit_exactly data start p).bind fun a ha => ?_).congr (whole_cons _).symm
      subst ha
      rw [if_neg hmore]
      exact hrest.imp fun x hx => by rw [hx,Nat.add_assoc p 1,Nat.add_comm 1]

def HuffmanTable.counts (table : HuffmanTable) : List ℕ :=
  (List.ofFn table.lengths).map BitVec.toNat

def HuffmanTable.Few (table : HuffmanTable) : Prop := table.counts.sum ≤ 256

section Ends

variable (data : List Byte) (start : ℕ)

/-- The code at `p`, which is -1 where no code word starts, and how many bits it takes. -/
def codeAt (table : HuffmanTable) (p : ℕ) : ℤ × ℕ :=
  taken table 16 (search table.counts 0 0 0 (window data start p 16))

/-- Where the coefficients from `l` on end; `fuel` bounds their number. -/
def coefficientsEnd (table : HuffmanTable) : ℕ → ℕ → ℕ → ℕ
  | 0,_,p => p
  | fuel+1,l,p =>
    if l < 64 then
      let t := codeAt data start table p
      if t.1 ≤ 0 then p+t.2
      else
        let l := if 15 < t.1 then l+(t.1.toNat >>> 4) else l
        let n := if 15 < t.1 then t.1.toNat &&& 0xF else t.1.toNat
        coefficientsEnd table fuel (if l < 64 then l+1 else l) (p+t.2+n)
    else p

/-- Where the matrix at `p` ends. -/
def matrixEnd (dc ac : HuffmanTable) (p : ℕ) : ℕ :=
  coefficientsEnd data start ac 64 1 (p+(codeAt data start dc p).2+(codeAt data start dc p).1.toNat)

end Ends

theorem huffmanGetCode_exactly (data : List Byte) (start : ℕ) {table : HuffmanTable}
    (hfew : table.Few) (p : ℕ) :
    Exactly Panics (Whole data start p (p+(codeAt data start table p).2))
      (huffmanGetCode table (streamOf data start p))
      (· = ((codeAt data start table p).1,
        streamOf data start (p+(codeAt data start table p).2))) := by
  have h := @codeLoop_exactly data start table (List.ofFn table.lengths) p 0 0 0 le_rfl
    ((Nat.zero_add _).trans_le hfew)
  rw [List.length_ofFn] at h
  exact h

theorem getBitn_exactly (data : List Byte) (start p : ℕ) (n : ℤ) :
    Exactly Panics (0 ≤ n ∧ Whole data start p (p+n.toNat)) (getBitn (streamOf data start p) n)
      (fun a => a.2 = streamOf data start (p+n.toNat)) := by
  rw [getBitn]
  split
  · exact .error (fun h => by omega) trivial
  · exact (bitLoop_exactly data start n.toNat p 0).congr (and_iff_right (by omega)).symm

theorem zigzag_place : ∀ zi < 64, ∃ i, zigzag[zi]? = some i ∧ i &&& 0x7 < 8 ∧ i >>> 3 < 8 := by
  decide

theorem addZigzag_ok (self : Idct) (zi : ℕ) (coeff : BitVec 32) :
    ∃ i, addZigzag self zi coeff = .ok i := by
  rw [addZigzag]
  split
  · exact ⟨self,rfl⟩
  · obtain ⟨i,hi,hn,hm⟩ := zigzag_place zi (by omega)
    rw [hi]
    exact ⟨_,if_pos ⟨hn,hm⟩⟩

theorem quantAt_ok (quant : Fin 64 → Byte) {l : ℕ} (h : l < 64) :
    quantAt quant l = .ok ((quant ⟨l,h⟩).setWidth 32) :=
  dif_pos h

theorem le_coefficientsEnd (table : HuffmanTable) (fuel l p : ℕ) :
    p ≤ coefficientsEnd data start table fuel l p := by
  induction fuel generalizing l p with
  | zero => exact le_rfl
  | succ fuel ih =>
    rw [coefficientsEnd]
    split
    · simp only
      split
      · exact Nat.le_add_right _ _
      · exact le_trans (by omega) (ih _ _)
    · exact le_rfl

theorem whole_code {c : ℤ} (hpq : p ≤ q) (hqr : q+c.toNat ≤ r) :
    Whole data start p q ∧ (0 ≤ c ∧ Whole data start q (q+c.toNat)) ∧
    Whole data start (q+c.toNat) r ↔
      0 ≤ c ∧ Whole data start p r := by
  rw [whole_split hpq ((Nat.le_add_right q _).trans hqr),whole_split (Nat.le_add_right q _) hqr]
  tauto

theorem coefficientLoop_exactly (data : List Byte) (start : ℕ) {table : HuffmanTable}
    (hfew : table.Few)
    (quant : Fin 64 → Byte) {fuel l : ℕ} (hfuel : 64 ≤ l+fuel) (i : Idct) (p : ℕ) :
    Exactly Panics (Whole data start p (coefficientsEnd data start table fuel l p))
      (coefficientLoop table quant fuel l i (streamOf data start p))
      (fun a => a.2 = streamOf data start (coefficientsEnd data start table fuel l p)) := by
  induction fuel generalizing l i p with
  | zero =>
    rw [coefficientLoop,if_neg (by omega)]
    exact .ok whole_self rfl
  | succ fuel ih =>
    rw [coefficientLoop,coefficientsEnd]
    split
    · rename_i hl
      by_cases hcode : (codeAt data start table p).1 ≤ 0
      · simp only [if_pos hcode]
        refine ((huffmanGetCode_exactly data start hfew p).bind fun a ha =>
          show Exactly _ True _ _ from ?_).congr (and_iff_left trivial)
        subst ha
        rw [if_pos hcode]
        exact .ok trivial rfl
      · simp only [if_neg hcode]
        generalize ht : codeAt data start table p = t at hcode ⊢
        generalize hl' : (if 15 < t.1 then l+(t.1.toNat >>> 4) else l) = l'
        generalize hn : (if 15 < t.1 then t.1.toNat &&& 0xF else t.1.toNat) = n
        have hint : (if 15 < t.1 then ((t.1.toNat &&& 0xF : ℕ) : ℤ) else t.1) = n := by
          rw [← hn]
          split <;> omega
        have hle : l ≤ l' := by
          rw [← hl']
          split <;> omega
        have hmore : 64 ≤ (if l' < 64 then l'+1 else l')+fuel := by
          split <;> omega
        have hget := huffmanGetCode_exactly data start hfew p
        rw [ht] at hget
        have hend :=
          @le_coefficientsEnd data start table fuel (if l' < 64 then l'+1 else l') (p+t.2+n)
        refine (hget.bind fun a ha =>
          ?_).congr ((whole_code (c:=n) (Nat.le_add_right p t.2) hend).trans
          (and_iff_right (Int.natCast_nonneg n)))
        subst ha
        simp only [if_neg hcode,hl',hint]
        refine (getBitn_exactly data start (p+t.2) n).bind fun a ha => ?_
        rw [Int.toNat_natCast] at ha
        split
        · rename_i hl64
          obtain ⟨i',hadd⟩ :=
            addZigzag_ok i l' (huffmanDecode n a.1*((quant ⟨l',hl64⟩).setWidth 32))
          rw [if_pos hl64] at hmore
          rw [quantAt_ok quant hl64]
          simp only [bind,Except.bind,hadd,ha]
          exact ih hmore i' _
        · rename_i hl64
          rw [if_neg hl64] at hmore
          rw [ha]
          exact ih hmore i _
    · exact .ok whole_self rfl

/-- A matrix is read if and only if it starts with a code word of its first table and no bit of it
is the last one of a `0xFF` at the end. -/
theorem buildMatrix_exactly (data : List Byte) (start : ℕ) {jpeg : Internal} {idx : Byte}
    (hdc : (jpeg.huffmanTables idx).Few) (hac : (jpeg.huffmanTables (16+idx)).Few)
    (quant : Fin 64 → Byte) (oldcoeff : BitVec 32) (p : ℕ) :
    Exactly Panics (0 ≤ (codeAt data start (jpeg.huffmanTables idx) p).1 ∧
        Whole data start p (matrixEnd data start (jpeg.huffmanTables idx)
          (jpeg.huffmanTables (16+idx)) p))
      (buildMatrix jpeg (streamOf data start p) idx quant oldcoeff)
      (fun a => a.2.2 = streamOf data start
        (matrixEnd data start (jpeg.huffmanTables idx) (jpeg.huffmanTables (16+idx)) p)) := by
  rw [buildMatrix]
  refine ((huffmanGetCode_exactly data start hdc p).bind fun a ha => ?_).congr
    (whole_code (Nat.le_add_right p _) (le_coefficientsEnd _ 64 1 _))
  subst ha
  refine (getBitn_exactly data start _ _).bind fun a ha => ?_
  obtain ⟨i,hadd⟩ :=
    addZigzag_ok [] 0 ((huffmanDecode
      (codeAt data start (jpeg.huffmanTables idx) p).1 a.1+oldcoeff)*
    ((quant 0).setWidth 32))
  have hquant : quantAt quant 0 = .ok ((quant 0).setWidth 32) := quantAt_ok quant (by decide)
  simp only [hquant,ha,bind,Except.bind,hadd]
  have hloop := coefficientLoop_exactly data start hac quant (show 64 ≤ 1+64 by decide) i
    (p+(codeAt data start (jpeg.huffmanTables idx) p).2+(codeAt data start
      (jpeg.huffmanTables idx) p).1.toNat)
  refine ((hloop.bind fun a ha => show Exactly _ True _ _ from ?_).congr (and_iff_left trivial))
  exact .ok trivial ha

end Jpeg
end ScalesOS
