import Mathlib.Data.List.DropRight
import ScalesOS.Terminal

/-!
# The canonical line discipline

A line editor, and the line discipline of a terminal with the default settings as an
implementation of it: whatever the readers do, what becomes readable on the slave side is what
the editor delivers.
-/

namespace ScalesOS

/-- A line editor: the line that is pending, and whether the next character is literal. -/
structure LineEditor where
  pending : List Byte
  literal : Bool

namespace LineEditor

def start : LineEditor := ⟨[],false⟩

def setPending (e : LineEditor) (line : List Byte) : LineEditor := { e with pending := line }

def append (line : List Byte) (c : Byte) : List Byte :=
  if line.length < PTY_BUFFER_SIZE then line++[c] else line

def terminate (line : List Byte) (c : Byte) : List Byte :=
  (if line.length < PTY_BUFFER_SIZE then line else line.dropLast)++[c]

/-- What a character does that is not literal: the editor after it, and what is delivered. -/
def interpret (e : LineEditor) (c : Byte) : LineEditor × List Byte :=
  -- ^C, ^\ and ^Z
  if c = 3 ∨ c = 28 ∨ c = 26 then (e,[])
  -- ^V
  else if c = 22 then ({ e with literal := true },[])
  else if c = 0x7F then (e.setPending e.pending.dropLast,[])
  -- ^W
  else if c = 23 then (e.setPending (e.pending.rdropWhile (· ≠ SPACE)),[])
  -- ^U
  else if c = 21 then (e.setPending [],[])
  -- ^D
  else if c = 4 then (e.setPending [],e.pending)
  else if c = LINE_FEED ∨ c = 0 then (e.setPending [],terminate e.pending c)
  else (e.setPending (append e.pending c),[])

def input (e : LineEditor) (c : Byte) : LineEditor × List Byte :=
  if e.literal then (⟨append e.pending c,false⟩,[])
  else e.interpret (if c = CARRIAGE_RETURN then LINE_FEED else c)

/-- What a string does. -/
def inputs : LineEditor → List Byte → LineEditor × List Byte
  | e, [] => (e,[])
  | e, c :: rest =>
    let (e',out) := e.input c
    let (e'',out') := e'.inputs rest
    (e'',out++out')

theorem append_ne_nil (line : List Byte) (c : Byte) : append line c ≠ [] := by
  rw [append]
  split
  · exact List.append_ne_nil_of_right_ne_nil _ (List.cons_ne_nil _ _)
  · rename_i hfull
    intro hnil
    rw [hnil] at hfull
    exact hfull (by decide)

/-- The terminator is written over the last character, which is itself if there was room. -/
theorem terminate_eq (line : List Byte) (c : Byte) :
    terminate line c = (append line c).dropLast++[c] := by
  rw [terminate,append]
  split
  · rw [List.dropLast_concat]
  · rfl

end LineEditor

namespace Tty

variable {t u v : Tty} {e e' : LineEditor} {op : TtyOp} {ops rest : List TtyOp}
    {bytes : List Byte} {c : Byte}

/-- Characters of the line buffer from a place on. -/
def window (t : Tty) (i n : ℕ) : List Byte := (List.range n).map fun k => t.lineBuffer (i+k)

/-- The line. -/
def line (t : Tty) : List Byte := t.window 0 t.lineLength

theorem length_window (t : Tty) (i n : ℕ) : (t.window i n).length = n := by
  rw [window,List.length_map,List.length_range]

theorem length_line (t : Tty) : t.line.length = t.lineLength := length_window t 0 _

theorem window_succ (t : Tty) (i n : ℕ) :
    t.window i (n+1) = t.window i n++[t.lineBuffer (i+n)] := by
  rw [window,List.range_succ,List.map_append]
  rfl

theorem window_cons (t : Tty) (i n : ℕ) :
    t.window i (n+1) = t.lineBuffer i :: t.window (i+1) n := by
  rw [window,List.range_succ_eq_map,List.map_cons,List.map_map,window]
  congr 1
  refine List.map_congr_left fun k _ => ?_
  exact congrArg t.lineBuffer (by rw [Nat.succ_eq_add_one]; omega)

theorem window_setLine (t : Tty) {i n j : ℕ} (c : Byte) (h : i+n ≤ j) :
    (t.setLine j c).window i n = t.window i n := by
  refine List.map_congr_left fun k hk => ?_
  have hlt := List.mem_range.mp hk
  exact Function.update_of_ne (by omega) _ _

/-- The terminal has the default settings, and the state of the editor. -/
structure Shows (t : Tty) (e : LineEditor) : Prop where
  ts_eq : t.ts = .sane
  line_eq : t.line = e.pending
  nextl_eq : t.nextl = e.literal
  fits : t.lineLength ≤ PTY_BUFFER_SIZE

theorem Shows.length_eq (h : t.Shows e) : t.lineLength = e.pending.length := by
  rw [← h.line_eq,length_line]

theorem Shows.last_eq (h : t.Shows e) (hne : e.pending ≠ []) : t.last+1 = t.lineLength := by
  have hpos := List.length_pos_iff.mpr hne
  rw [← h.length_eq] at hpos
  rw [last,sub32_eq hpos,Nat.sub_add_cancel hpos]

theorem Shows.line_concat (h : t.Shows e) (hne : e.pending ≠ []) :
    e.pending = t.window 0 t.last++[t.lineBuffer t.last] := by
  rw [← h.line_eq,line,← h.last_eq hne,window_succ,Nat.zero_add]

theorem Shows.setNextl (h : t.Shows e) (b : Bool) : { t with nextl := b }.Shows
    { e with literal := b } :=
  ⟨h.ts_eq,h.line_eq,rfl,h.fits⟩

theorem Shows.linePutc (h : t.Shows e) (c : Byte) :
    (t.kDevTtyLinePutc c).Shows (e.setPending (LineEditor.append e.pending c)) := by
  have hlen := h.length_eq
  rw [kDevTtyLinePutc,LineEditor.append,hlen]
  split
  · rename_i hroom
    refine ⟨h.ts_eq,?_,h.nextl_eq,?_⟩
    · change (t.setLine e.pending.length c).window 0 (e.pending.length+1) = _
      rw [window_succ,window_setLine t c (by omega),Nat.zero_add,← hlen]
      change t.line++[Function.update t.lineBuffer t.lineLength c t.lineLength] = _
      rw [Function.update_self,h.line_eq]
      rfl
    · exact hroom
  · exact h

theorem Shows.shorten (h : t.Shows e) (hne : e.pending ≠ []) :
    t.shorten.Shows (e.setPending e.pending.dropLast) := by
  have hlast := h.last_eq hne
  have hfits := h.fits
  refine ⟨h.ts_eq,?_,h.nextl_eq,?_⟩
  · change (t.setLine t.last 0).window 0 t.last = e.pending.dropLast
    rw [window_setLine t 0 (by omega),h.line_concat hne,List.dropLast_concat]
  · change t.last ≤ PTY_BUFFER_SIZE
    omega

theorem Shows.setLast (h : t.Shows e) (hne : e.pending ≠ []) (c : Byte) :
    (t.setLine t.last c).Shows (e.setPending (e.pending.dropLast++[c])) := by
  have hlast := h.last_eq hne
  refine ⟨h.ts_eq,?_,h.nextl_eq,h.fits⟩
  change (t.setLine t.last c).window 0 t.lineLength = e.pending.dropLast++[c]
  rw [← hlast,window_succ,window_setLine t c (by omega),Nat.zero_add]
  change _++[Function.update t.lineBuffer t.last c t.last] = _
  rw [Function.update_self,h.line_concat hne,List.dropLast_concat]

end Tty

namespace TtyOp

def isPut : TtyOp → Bool
  | .putIn _ => true
  | .putOut _ => true
  | _ => false

def isSilent : TtyOp → Bool
  | .output _ => true
  | .signal _ => true
  | .putOut _ => true
  | _ => false

end TtyOp

namespace Tty

variable {t u v : Tty} {e e' : LineEditor} {op : TtyOp} {ops rest : List TtyOp}
    {bytes : List Byte} {c : Byte}

/-- A writer gets through its operations, and has put so many characters in. The line fits
into its buffer all the time. -/
inductive Writes : Tty → List TtyOp → Tty → List Byte → Prop
  | nil {t : Tty} (hfits : t.lineLength ≤ PTY_BUFFER_SIZE) : Writes t [] t []
  | putIn {t u : Tty} {c : Byte} {rest : List TtyOp} {bytes : List Byte}
      (h : Writes t rest u bytes) :
      Writes t (.putIn c :: rest) u (c :: bytes)
  | putOut {t u : Tty} {c : Byte} {rest : List TtyOp} {bytes : List Byte}
      (h : Writes t rest u bytes) :
      Writes t (.putOut c :: rest) u bytes
  | exec {t u : Tty} {op : TtyOp} {rest : List TtyOp} {bytes : List Byte} (hop : op.isPut = false)
      (hfits : t.lineLength ≤ PTY_BUFFER_SIZE)
      (h : Writes (t.exec op).1 ((t.exec op).2++rest) u bytes) :
      Writes t (op :: rest) u bytes

theorem Writes.fits (h : Writes t ops u bytes) : t.lineLength ≤ PTY_BUFFER_SIZE := by
  induction h with
  | nil hfits => exact hfits
  | putIn _ ih => exact ih
  | putOut _ ih => exact ih
  | exec _ hfits _ _ => exact hfits

/-- The writer gets through, and leaves the state of an editor. -/
def Gets (t : Tty) (ops : List TtyOp) (e : LineEditor) (bytes : List Byte) : Prop :=
  ∃ u : Tty, u.Shows e ∧ Writes t ops u bytes

theorem Gets.exec (hop : op.isPut = false) (hfits : t.lineLength ≤ PTY_BUFFER_SIZE)
    (h : Gets (t.exec op).1 ((t.exec op).2++rest) e bytes) : Gets t (op :: rest) e bytes := by
  obtain ⟨u,hu,hw⟩ := h
  exact ⟨u,hu,.exec hop hfits hw⟩

theorem Gets.fits (h : Gets t ops e bytes) : t.lineLength ≤ PTY_BUFFER_SIZE := by
  obtain ⟨u,-,hw⟩ := h
  exact hw.fits

theorem Gets.putOuts (hops : ∀ op ∈ ops, ∃ c, op = .putOut c) (h : Gets t rest e bytes) :
    Gets t (ops++rest) e bytes := by
  induction ops with
  | nil => exact h
  | cons op ops ih =>
    obtain ⟨c,rfl⟩ := hops op List.mem_cons_self
    obtain ⟨u,hu,hw⟩ := ih fun op' hop' => hops op' (List.mem_cons_of_mem _ hop')
    exact ⟨u,hu,.putOut hw⟩

theorem processOutputChar_putOuts (t : Tty) (c : Byte) (op : TtyOp)
    (h : op ∈ t.kDevTtyPtyProcessOutputChar c) :
    ∃ c', op = .putOut c' := by
  rw [kDevTtyPtyProcessOutputChar] at h
  dsimp only at h
  generalize hbefore : (if c = LINE_FEED ∧ t.ts.oflag ONLCR = true then
    [TtyOp.putOut CARRIAGE_RETURN] else []) = before at h
  generalize (if c = LINE_FEED ∧ (!t.ts.oflag ONLCR) = true ∧ t.ts.oflag OCRNL = true then
    CARRIAGE_RETURN else c) = c' at h
  have hput : op ∈ before → ∃ c', op = .putOut c' := by
    rw [← hbefore]
    split
    · exact fun hm => ⟨_,List.mem_singleton.mp hm⟩
    · exact fun hm => by cases hm
  split at h
  · split at h
    · exact hput h
    · rcases List.mem_append.mp h with h | h
      · exact hput h
      · exact ⟨_,List.mem_singleton.mp h⟩
  · exact ⟨_,List.mem_singleton.mp h⟩

theorem Gets.silent (hops : ∀ op ∈ ops, op.isSilent = true) (h : Gets t rest e bytes) :
    Gets t (ops++rest) e bytes := by
  induction ops with
  | nil => exact h
  | cons op ops ih =>
    have hrest := ih fun op' hop' => hops op' (List.mem_cons_of_mem _ hop')
    have hop := hops op List.mem_cons_self
    cases op with
    | output c => exact Gets.exec rfl h.fits (hrest.putOuts (processOutputChar_putOuts t c))
    | signal sig => exact Gets.exec rfl h.fits hrest
    | putOut c =>
      obtain ⟨u,hu,hw⟩ := hrest
      exact ⟨u,hu,.putOut hw⟩
    | _ => cases hop

theorem eraseEcho_silent (t : Tty) (op : TtyOp) (h : op ∈ t.eraseEcho) : op.isSilent = true := by
  rw [eraseEcho] at h
  split at h
  · rw [List.eq_of_mem_replicate h]
    rfl
  · cases h

theorem echo_silent (t : Tty) (c : Byte) (op : TtyOp) (h : op ∈ t.echo c) : op.isSilent = true := by
  rw [echo,echoCaret] at h
  split at h
  · split at h
    · rcases List.mem_pair.mp h with rfl | rfl <;> rfl
    · rw [List.mem_singleton.mp h]
      rfl
  · cases h

theorem Gets.eraseLoop (n : ℕ) : ∀ {t : Tty} {e : LineEditor}, t.Shows e → n ≤ e.pending.length →
    (∀ u : Tty, u.Shows (e.setPending (e.pending.rdrop n)) → Gets u rest e' bytes) →
    Gets t (.eraseLoop n :: rest) e' bytes := by
  induction n with
  | zero =>
    intro t e ht _ hrest
    refine Gets.exec rfl ht.fits (hrest t ?_)
    rw [List.rdrop_zero]
    exact ht
  | succ n ih =>
    intro t e ht hn hrest
    have hne : e.pending ≠ [] := by
      rintro hnil
      rw [hnil] at hn
      exact absurd hn (by simp)
    refine Gets.exec rfl ht.fits ?_
    change Gets t.shorten (t.eraseEcho++[.eraseLoop n]++rest) e' bytes
    rw [List.append_assoc]
    refine Gets.silent (eraseEcho_silent t) (ih (ht.shorten hne) ?_ fun u hu => hrest u ?_)
    · change n ≤ e.pending.dropLast.length
      rw [List.length_dropLast]
      omega
    · have hdrop : e.pending.dropLast.rdrop n = e.pending.rdrop (n+1) := by
        rw [List.rdrop,List.rdrop,List.length_dropLast,List.dropLast_eq_take,List.take_take]
        congr 1
        omega
      rw [← hdrop]
      exact hu

theorem Gets.erase (ht : t.Shows e) (amount : ℕ)
    (hrest : ∀ u : Tty, u.Shows (e.setPending (e.pending.rdrop amount)) → Gets u rest e' bytes) :
    Gets t (.erase amount :: rest) e' bytes := by
  refine Gets.exec rfl ht.fits (Gets.eraseLoop _ ht ?_ fun u hu => hrest u ?_)
  · rw [← ht.length_eq]
    split <;> omega
  · have hdrop : e.pending.rdrop (if t.lineLength < amount then t.lineLength else amount) =
        e.pending.rdrop amount := by
      rw [ht.length_eq,List.rdrop,List.rdrop]
      split
      · congr 1
        omega
      · rfl
    rw [← hdrop]
    exact hu

theorem Gets.eraseWord (n : ℕ) : ∀ {t : Tty} {e : LineEditor}, e.pending.length = n → t.Shows e →
    (∀ u : Tty, u.Shows (e.setPending (e.pending.rdropWhile (· ≠ SPACE))) → Gets u rest e' bytes) →
    Gets t (.eraseWord :: rest) e' bytes := by
  induction n with
  | zero =>
    intro t e hn ht hrest
    have hnil := List.length_eq_zero_iff.mp hn
    have hzero : t.lineLength = 0 := by rw [ht.length_eq,hn]
    have hexec : t.exec .eraseWord = (t,[]) := by rw [Tty.exec,if_neg (by simp [hzero])]
    refine Gets.exec rfl ht.fits ?_
    rw [hexec]
    refine hrest t ?_
    rw [hnil,List.rdropWhile_nil,← hnil]
    exact ht
  | succ n ih =>
    intro t e hn ht hrest
    have hne : e.pending ≠ [] := List.length_pos_iff.mp (by omega)
    have hlen := ht.length_eq
    have hline := ht.line_concat hne
    refine Gets.exec rfl ht.fits ?_
    by_cases hspace : t.lineBuffer t.last = SPACE
    · have hexec : t.exec .eraseWord = (t,[]) := by rw [Tty.exec,if_neg (by simp [hspace])]
      rw [hexec]
      refine hrest t ?_
      have hkeep : e.pending.rdropWhile (· ≠ SPACE) = e.pending := by
        rw [hline]
        exact List.rdropWhile_concat_neg _ _ _ (by simp [hspace])
      rw [hkeep]
      exact ht
    · have hexec : t.exec .eraseWord = (t,[.erase 1,.eraseWord]) := by
        rw [Tty.exec,if_pos ⟨by omega,hspace⟩]
      rw [hexec]
      refine Gets.erase ht 1 fun u hu => ih ?_ hu fun w hw => hrest w ?_
      · change (e.pending.rdrop 1).length = n
        rw [List.rdrop,List.length_take]
        omega
      · -- the last character is not a space, and goes
        have hdrop :
            e.pending.rdropWhile (· ≠ SPACE) = (e.pending.rdrop 1).rdropWhile (· ≠ SPACE) := by
          rw [hline,List.rdropWhile_concat_pos _ _ _ (by simp [hspace]),List.rdrop_concat_succ,
            List.rdrop_zero]
        rw [hdrop]
        exact hw

theorem Gets.flush (n : ℕ) : ∀ {t : Tty} {i : ℕ}, t.lineLength = n →
    n ≤ PTY_BUFFER_SIZE → t.ts = .sane → (∀ u : Tty, u.Shows ⟨[],t.nextl⟩ → Gets u rest e bytes) →
    Gets t (.flush i :: rest) e (t.window i n++bytes) := by
  induction n with
  | zero =>
    intro t i hn _ hts hrest
    have hexec : t.exec (.flush i) = (t,[]) := by rw [Tty.exec,if_pos hn]
    have hfits : t.lineLength ≤ PTY_BUFFER_SIZE := by
      rw [hn]
      exact Nat.zero_le _
    refine Gets.exec rfl hfits ?_
    rw [hexec]
    refine hrest t ⟨hts,?_,rfl,hfits⟩
    rw [line,hn]
    rfl
  | succ n ih =>
    intro t i hn hle hts hrest
    have hexec : t.exec (.flush i) = (t,[.putIn (t.lineBuffer i),.advance i]) := by
      rw [Tty.exec,if_neg (by omega)]
    have hlast : t.last = n := by
      rw [last,hn,sub32_eq (by omega),Nat.add_sub_cancel]
    have hfits : t.lineLength ≤ PTY_BUFFER_SIZE := by
      rw [hn]
      exact hle
    have hih :
        Gets { t with lineLength := t.last } (.flush (i+1) :: rest) e (t.window (i+1) n++bytes) :=
      ih (t := { t with lineLength := t.last }) hlast (by omega) hts hrest
    have hadvance : Gets t (.advance i :: rest) e (t.window (i+1) n++bytes) :=
      Gets.exec rfl hfits hih
    refine Gets.exec rfl hfits ?_
    rw [hexec,window_cons]
    obtain ⟨u,hu,hw⟩ := hadvance
    exact ⟨u,hu,.putIn hw⟩

theorem Gets.flushLine (ht : t.Shows e)
    (hrest : ∀ u : Tty, u.Shows (e.setPending []) → Gets u rest e' bytes) :
    Gets t (.flush 0 :: rest) e' (e.pending++bytes) := by
  rw [← ht.line_eq]
  refine Gets.flush t.lineLength rfl ht.fits ht.ts_eq fun u hu => hrest u ?_
  exact ⟨hu.ts_eq,hu.line_eq,hu.nextl_eq.trans ht.nextl_eq,hu.fits⟩

theorem isCc_iff {ts : Termios} {place : ℕ} (h : (ts.cCc place).toNat < 128) (c : Byte) :
    ts.isCc place c = true ↔ c = ts.cCc place := by
  rw [Termios.isCc,decide_eq_true_eq,BitVec.toInt_eq_toNat_cond,← BitVec.toNat_inj]
  have hc := c.isLt
  split <;> omega

theorem sane_isCc {place : ℕ} (b c : Byte) (hplace : Termios.sane.cCc place = b)
    (hb : b.toNat < 128) :
    Termios.sane.isCc place c = decide (c = b) := by
  rw [Bool.eq_iff_iff,isCc_iff (by rw [hplace]; exact hb),hplace,decide_eq_true_eq]

def interpret (t : Tty) (c : Byte) : Tty × List TtyOp :=
  match t.signalOf c with
  | some sig => (t,[.signal sig])
  | none => t.canonical c

theorem sane_signalOf (ht : t.ts = .sane) (c : Byte) :
    t.signalOf c =
      if c = 3 then some SIGINT else if c = 28 then some SIGQUIT else if c = 26 then
          some SIGTSTP else none := by
  have hisig : Termios.sane.lflag ISIG = true := by decide
  rw [signalOf,ht,if_pos hisig,sane_isCc 3 c rfl (by decide),sane_isCc 28 c rfl (by decide),
    sane_isCc 26 c rfl (by decide)]
  simp only [decide_eq_true_eq]

theorem sane_canonical (ht : t.ts = .sane) (c : Byte) :
    t.canonical c =
      if c = 22 then ({ t with nextl := true },[.output CARET,.output BACKSPACE])
      else if c = 0x7F then (t,[.erase 1])
      else if c = 23 then (t,[.eraseWord])
      else if c = 21 then (t,[.erase t.lineLength])
      else if c = 4 then (t,[.flush 0])
      else if c = LINE_FEED ∨ c = 0 then (t.kDevTtyLinePutc c,t.echo c++[.terminate c])
      else (t.kDevTtyLinePutc c,t.echo c) := by
  have hiexten : Termios.sane.lflag IEXTEN = true := by decide
  have hiuclc : Termios.sane.iflag IUCLC = false := by decide
  have hechoe : Termios.sane.lflag ECHOE = true := by decide
  have hechok : Termios.sane.lflag ECHOK = true := by decide
  have hecho : Termios.sane.lflag ECHO = true := by decide
  rw [canonical,ht,hiexten,hiuclc,hechoe,hechok,hecho]
  simp only [sane_isCc 22 _ (rfl : Termios.sane.cCc VLNEXT = 22) (by decide),
    sane_isCc 0x7F _ (rfl : Termios.sane.cCc VERASE = 0x7F) (by decide),
    sane_isCc 23 _ (rfl : Termios.sane.cCc VWERASE = 23) (by decide),
    sane_isCc 21 _ (rfl : Termios.sane.cCc VKILL = 21) (by decide),
    sane_isCc 4 _ (rfl : Termios.sane.cCc VEOF = 4) (by decide),
    sane_isCc 0 _ (rfl : Termios.sane.cCc VEOL = 0) (by decide),
    decide_eq_true_eq,and_true,true_and,Bool.false_eq_true,false_and,if_false,if_true,Bool.not_true,
    List.append_nil]

theorem sane_input (ht : t.ts = .sane) (hliteral : t.nextl = false) (c : Byte) :
    t.kDevTtyPtyProcessInputChar c = t.interpret (if c = CARRIAGE_RETURN then
      LINE_FEED else c) := by
  have hsignal : t.signalOf (if c = CARRIAGE_RETURN then LINE_FEED else c) = t.signalOf c := by
    split
    · rename_i hreturn
      rw [hreturn,sane_signalOf ht,sane_signalOf ht]
      decide
    · rfl
  rw [interpret,hsignal]
  have hechoctl : Termios.sane.lflag ECHOCTL = false := by decide
  have hicanon : Termios.sane.lflag ICANON = true := by decide
  have histrip : Termios.sane.iflag ISTRIP = false := by decide
  have higncr : Termios.sane.iflag IGNCR = false := by decide
  have hinlcr : Termios.sane.iflag INLCR = false := by decide
  have hicrnl : Termios.sane.iflag ICRNL = true := by decide
  rw [kDevTtyPtyProcessInputChar,hliteral,echoCtl,ht,hechoctl,hicanon,histrip,higncr,hinlcr,hicrnl]
  cases t.signalOf c with
  | none => simp only [Bool.false_eq_true,false_and,true_and,if_false,if_true]
  | some sig => simp only [Bool.false_eq_true,if_false,List.nil_append]

theorem Gets.terminate (ht : t.Shows e) (hne : e.pending ≠ []) (c : Byte)
    (hrest : ∀ u : Tty, u.Shows (e.setPending []) → Gets u rest e' bytes) :
    Gets t (.terminate c :: rest) e' (e.pending.dropLast++[c]++bytes) := by
  have hlast := ht.setLast hne c
  have hflush := Gets.flushLine (ht.setLast hne c) hrest
  exact Gets.exec rfl ht.fits hflush

theorem Gets.interpret (ht : t.Shows e) (c : Byte)
    (hrest : ∀ u : Tty, u.Shows (e.interpret c).1 → Gets u rest e' bytes) :
    Gets (t.interpret c).1 ((t.interpret c).2++rest) e' ((e.interpret c).2++bytes) := by
  rw [Tty.interpret,sane_signalOf ht.ts_eq]
  by_cases hsig : c = 3 ∨ c = 28 ∨ c = 26
  · rw [LineEditor.interpret,if_pos hsig] at hrest ⊢
    rcases hsig with rfl | rfl | rfl <;> exact Gets.silent (by simp [TtyOp.isSilent]) (hrest t ht)
  rw [LineEditor.interpret,if_neg hsig] at hrest ⊢
  rw [not_or,not_or] at hsig
  rw [if_neg hsig.1,if_neg hsig.2.1,if_neg hsig.2.2]
  dsimp only
  rw [sane_canonical ht.ts_eq]
  by_cases hnext : c = 22
  · rw [if_pos hnext] at hrest ⊢
    rw [if_pos hnext]
    exact Gets.silent (by simp [TtyOp.isSilent]) (hrest _ (ht.setNextl true))
  rw [if_neg hnext] at hrest ⊢
  rw [if_neg hnext]
  by_cases herase : c = 0x7F
  · rw [if_pos herase] at hrest ⊢
    rw [if_pos herase]
    refine Gets.erase ht 1 fun u hu => hrest u ?_
    have hdrop : e.pending.rdrop 1 = e.pending.dropLast := List.dropLast_eq_take.symm
    rw [hdrop] at hu
    exact hu
  rw [if_neg herase] at hrest ⊢
  rw [if_neg herase]
  by_cases hword : c = 23
  · rw [if_pos hword] at hrest ⊢
    rw [if_pos hword]
    exact Gets.eraseWord _ rfl ht hrest
  rw [if_neg hword] at hrest ⊢
  rw [if_neg hword]
  by_cases hkill : c = 21
  · rw [if_pos hkill] at hrest ⊢
    rw [if_pos hkill]
    refine Gets.erase ht t.lineLength fun u hu => hrest u ?_
    have hdrop : e.pending.rdrop t.lineLength = [] := by
      rw [ht.length_eq,List.rdrop,Nat.sub_self,List.take_zero]
    rw [hdrop] at hu
    exact hu
  rw [if_neg hkill] at hrest ⊢
  rw [if_neg hkill]
  by_cases heof : c = 4
  · rw [if_pos heof] at hrest ⊢
    rw [if_pos heof]
    exact Gets.flushLine ht hrest
  rw [if_neg heof] at hrest ⊢
  rw [if_neg heof]
  by_cases hend : c = LINE_FEED ∨ c = 0
  · rw [if_pos hend] at hrest ⊢
    rw [if_pos hend,LineEditor.terminate_eq]
    dsimp only
    rw [List.append_assoc]
    exact Gets.silent (echo_silent t c)
      (Gets.terminate (ht.linePutc c) (LineEditor.append_ne_nil e.pending c) c hrest)
  · rw [if_neg hend] at hrest ⊢
    rw [if_neg hend]
    exact Gets.silent (echo_silent t c) (hrest _ (ht.linePutc c))

/-- What a character does in the terminal is what it does in the editor. -/
theorem Gets.input (ht : t.Shows e) (c : Byte)
    (hrest : ∀ u : Tty, u.Shows (e.input c).1 → Gets u rest e' bytes) :
    Gets t (.input c :: rest) e' ((e.input c).2++bytes) := by
  refine Gets.exec rfl ht.fits ?_
  change Gets (t.kDevTtyPtyProcessInputChar c).1 ((t.kDevTtyPtyProcessInputChar c).2++rest) e' _
  cases hliteral : e.literal with
  | true =>
    have hnextl := ht.nextl_eq.trans hliteral
    rw [LineEditor.input,if_pos hliteral] at hrest ⊢
    rw [kDevTtyPtyProcessInputChar,if_pos hnextl]
    exact Gets.silent (echo_silent t c) (hrest _ ((ht.setNextl false).linePutc c))
  | false =>
    have hnextl := ht.nextl_eq.trans hliteral
    rw [LineEditor.input,if_neg (by simp [hliteral])] at hrest ⊢
    rw [sane_input ht.ts_eq hnextl]
    exact Gets.interpret ht _ hrest

theorem Gets.inputs (data : List Byte) : ∀ {t : Tty} {e : LineEditor}, t.Shows e →
    Gets t (kDevTtyPtyWriteMaster data) (e.inputs data).1 (e.inputs data).2 := by
  induction data with
  | nil => exact fun {t} _ ht => ⟨t,ht,.nil ht.fits⟩
  | cons c rest ih => exact fun ht => Gets.input ht c fun _ hu => ih hu

theorem create_shows (memory : ℕ → Byte) : (Tty.create .sane memory).Shows .start :=
  ⟨rfl,rfl,rfl,Nat.zero_le _⟩

end Tty

namespace TtySession

variable {s t : TtySession} {e : LineEditor} {total : List Byte}

/-- What has been read, what can be read and what the writer has yet to put in. -/
structure Follows (s : TtySession) (e : LineEditor) (total : List Byte) : Prop where
  in_valid : s.pty.inBuffer.Valid
  out_valid : s.pty.outBuffer.Valid
  delivers : ∃ bytes, s.pty.tty.Gets s.todo e bytes ∧
    s.received++s.pty.inBuffer.contents++bytes = total

theorem Follows.write (h : Follows s e total) (hret : s.write = some t) : Follows t e total := by
  obtain ⟨hin,hout,bytes,⟨u,hu,hw⟩,htotal⟩ := h
  rw [TtySession.write] at hret
  generalize htodo : s.todo = todo at hw hret
  cases hw with
  | nil => cases hret
  | @putIn _ _ c rest bytes hw =>
    dsimp only at hret
    split at hret
    · cases hret
    · rename_i hroom
      obtain rfl := Option.some.inj hret
      refine ⟨hin.store c,hout,bytes,⟨u,hu,hw⟩,?_⟩
      change s.received++(s.pty.inBuffer.store c).contents++bytes = total
      rw [hin.contents_store c hroom,← htotal]
      simp only [List.append_assoc,List.singleton_append]
  | @putOut _ _ c rest bytes hw =>
    dsimp only at hret
    split at hret
    · cases hret
    · obtain rfl := Option.some.inj hret
      exact ⟨hin,hout.store c,bytes,⟨u,hu,hw⟩,htotal⟩
  | @exec _ _ op rest bytes hop hfits hw =>
    have hnext : t = { s with pty := { s.pty with tty := (s.pty.tty.exec op).1 }, todo :=
      (s.pty.tty.exec op).2++rest } := by
      cases op with
      | putIn c => cases hop
      | putOut c => cases hop
      | _ => exact (Option.some.inj hret).symm
    rw [hnext]
    exact ⟨hin,hout,bytes,⟨u,hu,hw⟩,htotal⟩

theorem Follows.readSlave (h : Follows s e total) (size : ℕ) :
    Follows (s.readSlave size) e total := by
  obtain ⟨hin,hout,bytes,hgets,htotal⟩ := h
  obtain ⟨hvalid,-,hcontents,hbytes⟩ :=
    Ringbuffer.takeLoop_spec (s.pty.tty.readSize s.pty.inBuffer.readAvailable size) _ hin
  refine ⟨hvalid,hout,bytes,hgets,?_⟩
  change s.received++(Ringbuffer.takeLoop _ s.pty.inBuffer).2++(Ringbuffer.takeLoop _
    s.pty.inBuffer).1.contents++bytes = total
  rw [hcontents,hbytes,List.append_assoc s.received,List.take_append_drop,htotal]

theorem Follows.readMaster (h : Follows s e total) (size : ℕ) :
    Follows (s.readMaster size) e total :=
  ⟨h.in_valid,(Ringbuffer.takeLoop_spec size _ h.out_valid).1,h.delivers⟩

theorem Follows.step (h : Follows s e total) (hstep : Step s t) : Follows t e total := by
  obtain ⟨event,hret⟩ := hstep
  cases event with
  | write => exact h.write hret
  | readSlave size =>
    obtain rfl := Option.some.inj hret
    exact h.readSlave size
  | readMaster size =>
    obtain rfl := Option.some.inj hret
    exact h.readMaster size

theorem boot_follows (line input output : ℕ → Byte) (data : List Byte) :
    Follows (boot line input output data) (LineEditor.start.inputs data).1
    (LineEditor.start.inputs data).2 := by
  have hvalid : ∀ memory : ℕ → Byte, (Ringbuffer.create PTY_BUFFER_SIZE memory).Valid :=
    fun _ => ⟨by change 2 ≤ PTY_BUFFER_SIZE; decide,Nat.zero_lt_succ _,Nat.zero_lt_succ _⟩
  exact ⟨hvalid _,hvalid _,_,Tty.Gets.inputs data (Tty.create_shows line),rfl⟩

theorem room_of_empty {rb : Ringbuffer} (h : rb.Valid) (hempty : rb.contents = []) :
    rb.writeAvailable ≠ 0 := by
  have hsum := h.available
  have htwo := h.two_le
  rw [Ringbuffer.readAvailable_eq,hempty,List.length_nil] at hsum
  omega

theorem readSize_available (t : Tty) (n : ℕ) : n ≤ t.readSize n n := by
  rw [Tty.readSize]
  split_ifs <;> omega

theorem exists_room_in (hin : s.pty.inBuffer.Valid) :
    ∃ t, Step s t ∧ t.pty.inBuffer.Valid ∧ t.pty.outBuffer = s.pty.outBuffer ∧
    t.pty.tty = s.pty.tty ∧ t.todo = s.todo ∧ t.pty.inBuffer.writeAvailable ≠ 0 := by
  obtain ⟨hvalid,-,hcontents,-⟩ := Ringbuffer.takeLoop_spec
    (s.pty.tty.readSize s.pty.inBuffer.readAvailable s.pty.inBuffer.readAvailable) _ hin
  refine ⟨s.readSlave s.pty.inBuffer.readAvailable,⟨.readSlave _,rfl⟩,hvalid,rfl,rfl,rfl,
    room_of_empty hvalid ?_⟩
  refine hcontents.trans (List.drop_eq_nil_of_le ?_)
  rw [← Ringbuffer.readAvailable_eq]
  exact readSize_available _ _

theorem exists_room_out (hout : s.pty.outBuffer.Valid) :
    ∃ t, Step s t ∧ t.pty.outBuffer.Valid ∧ t.pty.inBuffer = s.pty.inBuffer ∧
    t.pty.tty = s.pty.tty ∧ t.todo = s.todo ∧ t.pty.outBuffer.writeAvailable ≠ 0 := by
  obtain ⟨hvalid,-,hcontents,-⟩ := Ringbuffer.takeLoop_spec s.pty.outBuffer.readAvailable _ hout
  refine ⟨s.readMaster s.pty.outBuffer.readAvailable,⟨.readMaster _,rfl⟩,hvalid,rfl,rfl,rfl,
    room_of_empty hvalid ?_⟩
  refine hcontents.trans (List.drop_eq_nil_of_le ?_)
  rw [← Ringbuffer.readAvailable_eq]

theorem exists_finish {a b : Tty} {ops : List TtyOp} {bytes : List Byte}
    (h : Tty.Writes a ops b bytes) :
    ∀ s : TtySession, s.pty.inBuffer.Valid → s.pty.outBuffer.Valid → s.pty.tty = a → s.todo = ops →
      ∃ t, Relation.ReflTransGen Step s t ∧ t.todo = [] := by
  induction h with
  | nil => exact fun s _ _ _ htodo => ⟨s,.refl,htodo⟩
  | @putIn a b c rest bytes hw ih =>
    intro s hin hout htty htodo
    obtain ⟨u,hu,huin,huout,hutty,hutodo,hroom⟩ := exists_room_in hin
    have hwrite : u.write = some
        { u with pty := { u.pty with inBuffer := u.pty.inBuffer.store c }, todo := rest } := by
      rw [TtySession.write,hutodo,htodo]
      exact if_neg hroom
    obtain ⟨t,ht,hnil⟩ :=
      ih { u with pty := { u.pty with inBuffer := u.pty.inBuffer.store c }, todo := rest }
      (huin.store c) (huout ▸ hout) (hutty.trans htty) rfl
    exact ⟨t,.head hu (.head ⟨.write,hwrite⟩ ht),hnil⟩
  | @putOut a b c rest bytes hw ih =>
    intro s hin hout htty htodo
    obtain ⟨u,hu,huout,huin,hutty,hutodo,hroom⟩ := exists_room_out hout
    have hwrite : u.write = some
        { u with pty := { u.pty with outBuffer := u.pty.outBuffer.store c }, todo := rest } := by
      rw [TtySession.write,hutodo,htodo]
      exact if_neg hroom
    obtain ⟨t,ht,hnil⟩ :=
      ih { u with pty := { u.pty with outBuffer := u.pty.outBuffer.store c }, todo := rest }
      (huin ▸ hin) (huout.store c) (hutty.trans htty) rfl
    exact ⟨t,.head hu (.head ⟨.write,hwrite⟩ ht),hnil⟩
  | @exec a b op rest bytes hop hfits hw ih =>
    intro s hin hout htty htodo
    have hwrite : s.write = some { s with
        pty := { s.pty with tty := (s.pty.tty.exec op).1 }, todo :=
          (s.pty.tty.exec op).2++rest } := by
      rw [TtySession.write,htodo]
      cases op with
      | putIn c => cases hop
      | putOut c => cases hop
      | _ => rfl
    rw [← htty] at ih
    obtain ⟨t,ht,hnil⟩ :=
      ih { s with pty := { s.pty with tty := (s.pty.tty.exec op).1 }, todo :=
        (s.pty.tty.exec op).2++rest } hin hout rfl rfl
    exact ⟨t,.head ⟨.write,hwrite⟩ ht,hnil⟩

/-- Whatever readers do while a string is written to the master side of a terminal with the
default settings: the line fits into its buffer, what has become readable on the slave side is
a beginning of what the line editor delivers, and all of it once the writer is through; the
writer can always get through. -/
theorem canonical_line_discipline (line input output : ℕ → Byte) (data : List Byte)
    (h : Relation.ReflTransGen Step (boot line input output data) s) :
    s.pty.tty.lineLength ≤ PTY_BUFFER_SIZE ∧
      s.received++s.pty.inBuffer.contents <+: (LineEditor.start.inputs data).2 ∧
      (s.todo = [] → s.received++s.pty.inBuffer.contents = (LineEditor.start.inputs data).2 ∧
        s.pty.tty.line = (LineEditor.start.inputs data).1.pending ∧
        s.pty.tty.nextl = (LineEditor.start.inputs data).1.literal) ∧
      ∃ t, Relation.ReflTransGen Step s t ∧ t.todo = [] := by
  have hs := reach_invariant (I := fun s => Follows s _ _) (fun _ _ hs hstep => hs.step hstep)
    (boot_follows line input output data) h
  obtain ⟨hin,hout,bytes,⟨u,hu,hw⟩,htotal⟩ := hs
  refine ⟨hw.fits,⟨bytes,htotal⟩,fun htodo => ?_,exists_finish hw s hin hout rfl rfl⟩
  rw [htodo] at hw
  cases hw with
  | nil hfits =>
    rw [List.append_nil] at htotal
    exact ⟨htotal,hu.line_eq,hu.nextl_eq⟩

/-- `ab`, an erased character and the end of the line. -/
theorem canonical_line_discipline_erased :
    ∃ s, Relation.ReflTransGen Step (boot (fun _ => 0) (fun _ => 0) (fun _ => 0) [0x61,0x62,0x7F,
      CARRIAGE_RETURN]) s ∧ s.received++s.pty.inBuffer.contents = [0x61,LINE_FEED] := by
  obtain ⟨s,hs,htodo⟩ := (canonical_line_discipline (fun _ => 0) (fun _ => 0) (fun _ => 0)
    [0x61,0x62,0x7F,CARRIAGE_RETURN] .refl).2.2.2
  refine ⟨s,hs,((canonical_line_discipline _ _ _ _ hs).2.2.1 htodo).1.trans ?_⟩
  decide

end TtySession
end ScalesOS
