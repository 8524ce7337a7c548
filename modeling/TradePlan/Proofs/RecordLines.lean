import TradePlan.Proofs.Chronology
import TradePlan.Proofs.DecimalText

/-!
# Records and lines

A fault in a history names a line, and counts each record before it as one line.  The record itself
starts further down if there are more lines than records in front of it: blank lines, which are skipped,
and lines that end inside a quoted field.

    line + blankLines front ≤ lineAfter front
    line + blankLines front = lineAfter front ↔ no field before the record goes over a line end
    line = lineAfter front ↔ blankLines front = 0 ∧ no field before the record goes over a line end

Here `front` is the text in front of the first record that tells no trade.  A record that another one
follows is read up to its line end, and all other line ends that are read for it stand in its fields.
-/

namespace TradePlan

/-- The characters of a text that its first bytes are. -/
def Text.takeBytes : Nat → List Char → List Char
  | _, [] => []
  | n, c :: cs => if n = 0 then [] else c :: takeBytes (n - c.utf8Size) cs

theorem Text.takeBytes_append (cs ds : List Char) : takeBytes (byteLength cs) (cs ++ ds) = cs := by
  induction cs with
  | nil => cases ds <;> rfl
  | cons c cs ih =>
    have hpos := c.utf8Size_pos
    rw [byteLength, List.cons_append, takeBytes, if_neg (by omega), Nat.add_sub_cancel_left, ih]

namespace Csv

/-! ## Lines -/

/-- The number of characters that satisfy a condition together with the character in front of them. -/
def countBehind (p : Char → Char → Bool) (last : Char) : List Char → Nat
  | [] => 0
  | c :: cs => (p last c).toNat + countBehind p c cs

/-- Whether a line ends with a character.  A line feed or a carriage return ends one, and a line feed
behind a carriage return ends the same line. -/
def endsLine (last c : Char) : Bool := isLineEnd c && !(last == '\r' && c == '\n')

def endsBlankLine (last c : Char) : Bool := isLineEnd last && endsLine last c

def endsFilledLine (last c : Char) : Bool := !isLineEnd last && isLineEnd c

/-- The number of the line on which a text goes on, counted from one. -/
def lineAfter (front : List Char) : Nat := countBehind endsLine '\n' front + 1

def blankLines (front : List Char) : Nat := countBehind endsBlankLine '\n' front

/-- Characters none of which ends a line. -/
def IsFlat (cs : List Char) : Prop := ∀ c ∈ cs, isLineEnd c = false

/-- A record none of whose fields goes over a line end. -/
def Record.IsFlat (record : Record) : Prop := ∀ field ∈ record.fields, Csv.IsFlat field.toList

def withoutMark : List Char → List Char
  | '\ufeff' :: cs => cs
  | cs => cs

/-- The text in front of a record: what ends with the record before it, and the line ends behind that. -/
def Record.front (text : String) (record : Record) : List Char :=
  let ended := Text.takeBytes record.place.byte text.toList
  withoutMark (ended ++ (text.toList.drop ended.length).takeWhile isLineEnd)

/-- A record is read from what stands in a text behind a front, and its first character ends no line. -/
def Record.StartsBehind (front text : List Char) (record : Record) : Prop :=
  ∃ c rest, text = front ++ c :: rest ∧ isLineEnd c = false ∧
    record.fields = (readFields .atStart [] (c :: rest)).fields

instance (cs : List Char) : Decidable (IsFlat cs) :=
  List.decidableBAll (fun c => isLineEnd c = false) cs

instance (record : Record) : Decidable record.IsFlat :=
  List.decidableBAll (fun field : String => Csv.IsFlat field.toList) record.fields

section

variable {p : Char → Char → Bool} {last c : Char} {cs ds : List Char}

theorem countBehind_append : countBehind p last (cs ++ ds) =
    countBehind p last cs + countBehind p (cs.getLastD last) ds := by
  induction cs generalizing last with
  | nil => simp [countBehind]
  | cons c cs ih => rw [List.cons_append, countBehind, countBehind, ih, List.getLastD_cons, Nat.add_assoc]

/-- A line is blank or it is not. -/
theorem countBehind_endsLine : countBehind endsLine last cs =
    countBehind endsBlankLine last cs + countBehind endsFilledLine last cs := by
  induction cs generalizing last with
  | nil => rfl
  | cons c cs ih =>
    have hline : (endsLine last c).toNat =
        (endsBlankLine last c).toNat + (endsFilledLine last c).toNat := by
      rw [endsBlankLine, endsFilledLine]
      cases hlast : isLineEnd last with
      | true => simp
      | false =>
        have hreturn : (last == '\r') = false := (Bool.or_eq_false_iff.mp hlast).2
        simp [endsLine, hreturn]
    rw [countBehind, countBehind, countBehind, ih, hline]
    omega

/-- Line ends behind a line end end no filled line. -/
theorem filled_of_gap (hlast : isLineEnd last = true) (hcs : ∀ c ∈ cs, isLineEnd c = true) :
    countBehind endsFilledLine last cs = 0 ∧ isLineEnd (cs.getLastD last) = true := by
  induction cs generalizing last with
  | nil => exact ⟨rfl, hlast⟩
  | cons c cs ih =>
    obtain ⟨hc, hcs⟩ := List.forall_mem_cons.mp hcs
    obtain ⟨hcount, hend⟩ := ih hc hcs
    rw [countBehind, hcount, List.getLastD_cons]
    exact ⟨by simp [endsFilledLine, hlast], hend⟩

/-- The first line end behind another character ends a filled line. -/
theorem filled_eq_zero_iff (hlast : isLineEnd last = false) :
    countBehind endsFilledLine last cs = 0 ↔ IsFlat cs := by
  induction cs generalizing last with
  | nil => simp [countBehind, IsFlat]
  | cons c cs ih =>
    rw [countBehind, IsFlat, List.forall_mem_cons, endsFilledLine, hlast]
    cases hc : isLineEnd c with
    | true => simp
    | false => simpa [IsFlat] using ih hc

/-! ## The text of a record -/

theorem isFlat_cons : IsFlat (c :: cs) ↔ isLineEnd c = false ∧ IsFlat cs := List.forall_mem_cons

/-- A record that is read up to a line end: all other line ends that are read stand in its fields, and
none of them is right in front of that line end. -/
structure ReadsLine (last : Char) (state : FieldState) (field : List Char) (read : FieldsRead)
    (body : List Char) (e : Char) : Prop where
  taken : read.taken = body ++ [e]
  ends : isLineEnd e = true
  last : isLineEnd last = false ∨ state = .quoted → isLineEnd (body.getLastD last) = false
  flat : (∀ text ∈ read.fields, IsFlat text.toList) ↔ IsFlat field ∧ IsFlat body

/-- A character that ends neither a field nor a record. -/
theorem ReadsLine.after {state next : FieldState} {field grown body : List Char} {read : FieldsRead}
    {e : Char} (h : ReadsLine c next grown read body e)
    (hc : isLineEnd c = false ∨ next = .quoted)
    (hflat : IsFlat grown ∧ IsFlat body ↔ IsFlat field ∧ IsFlat (c :: body)) :
    ReadsLine last state field (read.after c) (c :: body) e where
  taken := by rw [FieldsRead.after, h.taken, List.cons_append]
  ends := h.ends
  last := by
    rw [List.getLastD_cons]
    exact fun _ => h.last hc
  flat := h.flat.trans hflat

/-- A record that ends before the text does is read up to a line end. -/
theorem readFields_readsLine {state : FieldState} {field : List Char}
    (h : (readFields state field cs).rest ≠ []) :
    ∃ body e, ReadsLine last state field (readFields state field cs) body e := by
  fun_induction readFields state field cs generalizing last with
  | case1 => exact absurd rfl h
  | case2 state field c cs hquote ih =>
    obtain ⟨body, e, hread⟩ := ih h
    exact ⟨c :: body, e, hread.after (.inr rfl) (by simp [isFlat_cons, hquote.1, isLineEnd])⟩
  | case3 state field c cs _ hquote ih =>
    obtain ⟨body, e, hread⟩ := ih h
    have hc : isLineEnd c = false := by simp [hquote.1, isLineEnd]
    exact ⟨c :: body, e, hread.after (.inl hc) (by simp [isFlat_cons, hc])⟩
  | case4 state field c cs _ _ hquote ih =>
    obtain ⟨body, e, hread⟩ := ih h
    exact ⟨c :: body, e, hread.after (.inr rfl) (by simp only [isFlat_cons]; tauto)⟩
  | case5 field c cs _ _ _ ih =>
    obtain ⟨body, e, hread⟩ := ih h
    exact ⟨c :: body, e, hread.after (.inr rfl) (by simp only [isFlat_cons]; tauto)⟩
  | case6 state field cs =>
    -- a comma ends the field, so the line ends in it and those in the other fields come apart here
    rename_i ih
    obtain ⟨body, e, hread⟩ := @ih ',' h
    have hcomma : isLineEnd ',' = false := by decide
    refine ⟨',' :: body, e, congrArg _ hread.taken, hread.ends, ?_, ?_⟩
    · rw [List.getLastD_cons]
      exact fun _ => hread.last (.inl hcomma)
    · rw [List.forall_mem_cons, hread.flat, isFlat_cons]
      simp [IsFlat, hcomma]
  | case7 state field c cs _ _ _ hstate _ hc =>
    -- outside of quotes the first line end ends the record, so no line end is in front of it
    refine ⟨[], c, rfl, hc, fun hlast => ?_, by simp [IsFlat]⟩
    exact hlast.resolve_right hstate
  | case8 state field c cs _ _ _ _ _ hc ih =>
    obtain ⟨body, e, hread⟩ := ih h
    have hc : isLineEnd c = false := Bool.eq_false_iff.mpr hc
    exact ⟨c :: body, e, hread.after (.inl hc) (by simp only [isFlat_cons]; tauto)⟩

/-- The first character of a record does not end it. -/
theorem exists_readsLine (hc : isLineEnd c = false)
    (h : (readFields .atStart [] (c :: cs)).rest ≠ []) :
    ∃ body e, ReadsLine c .atStart [] (readFields .atStart [] (c :: cs)) (c :: body) e := by
  have hread : ∃ body e, ReadsLine c .atStart [] (readFields .atStart [] (c :: cs)) body e :=
    readFields_readsLine h
  obtain ⟨body, e, hline⟩ := hread
  have hwhole := taken_append_rest .atStart [] (c :: cs)
  rw [hline.taken] at hwhole
  cases body with
  | nil =>
    obtain ⟨rfl, -⟩ := List.cons.inj hwhole
    exact absurd (hline.ends.symm.trans hc) (by decide)
  | cons b body =>
    obtain ⟨rfl, -⟩ := List.cons.inj hwhole
    exact ⟨body, e, hline⟩

/-- One filled line ends with a record, and one more with each line end behind another character in
its fields. -/
theorem ReadsLine.filled {read : FieldsRead} {body : List Char} {e : Char} (hc : isLineEnd c = false)
    (h : ReadsLine c .atStart [] read (c :: body) e) :
    countBehind endsFilledLine last read.taken = countBehind endsFilledLine c body + 1 ∧
    (countBehind endsFilledLine c body = 0 ↔ ∀ text ∈ read.fields, IsFlat text.toList) := by
  have hend : isLineEnd (body.getLastD c) = false := by
    have hlast := h.last (.inl hc)
    rwa [List.getLastD_cons] at hlast
  constructor
  · rw [h.taken, List.cons_append, countBehind, countBehind_append]
    simp only [countBehind, endsFilledLine, hc, hend, h.ends, Bool.and_false, Bool.not_false,
      Bool.and_true, Bool.toNat_false, Bool.toNat_true]
    omega
  · rw [filled_eq_zero_iff hc, h.flat, isFlat_cons]
    simp [IsFlat, hc]

/-! ## Records of a text -/

theorem after_append (place : Place) (cs ds : List Char) :
    place.after (cs ++ ds) = (place.after cs).after ds := by
  simp only [Place.after, Text.byteLength_append, List.count_append, Nat.add_assoc]

/-- The first record of a text stands behind line ends, and the others are those of the text after it. -/
theorem recordsFrom_eq_cons {place : Place} {record : Record} {more : List Record}
    (h : recordsFrom place cs = record :: more) :
    ∃ gap c text, cs = gap ++ c :: text ∧ (∀ c ∈ gap, isLineEnd c = true) ∧ isLineEnd c = false ∧
      let read := readFields .atStart [] (c :: text)
      record = ⟨place, read.fields⟩ ∧
      more = recordsFrom ((place.after gap).after read.taken) read.rest := by
  rw [recordsFrom] at h
  split at h
  · cases h
  next c text hbegins =>
  obtain ⟨rfl, rfl⟩ := List.cons.inj h
  have hc := List.head?_dropWhile_not isLineEnd cs
  rw [hbegins] at hc
  refine ⟨cs.takeWhile isLineEnd, c, text, ?_, fun _ => List.mem_takeWhile_imp, hc, rfl, rfl⟩
  rw [← hbegins, List.takeWhile_append_dropWhile]

/-- A text leads to a record: it has characters up to the end of the record before it, and line ends
behind them. -/
structure LeadsTo (place : Place) (text : List Char) (record : Record) (ended gap : List Char) :
    Prop where
  place_eq : record.place = place.after ended
  lineEnds : ∀ c ∈ gap, isLineEnd c = true
  starts : record.StartsBehind (ended ++ gap) text

/-- **In front of a record at least one line that is not blank ends for each record before it**, and no
other one exactly if no field of theirs goes over a line end. -/
theorem exists_leadsTo {place : Place} {earlier : List Record} {record : Record} {later : List Record}
    (hlast : isLineEnd last = true) (h : recordsFrom place cs = earlier ++ record :: later) :
    ∃ ended gap, LeadsTo place cs record ended gap ∧
      earlier.length ≤ countBehind endsFilledLine last (ended ++ gap) ∧
      (countBehind endsFilledLine last (ended ++ gap) = earlier.length ↔
        ∀ other ∈ earlier, other.IsFlat) := by
  induction earlier generalizing place last cs with
  | nil =>
    obtain ⟨gap, c, text, hcs, hgap, hc, rfl, -⟩ := recordsFrom_eq_cons h
    have hcount := (filled_of_gap hlast hgap).1
    exact ⟨[], gap, ⟨rfl, hgap, c, text, hcs, hc, rfl⟩, by simp, by simpa using hcount⟩
  | cons first earlier ih =>
    obtain ⟨lines, c, text, hcs, hlines, hc, hfirst, hmore⟩ := recordsFrom_eq_cons h
    have hrest : (readFields .atStart [] (c :: text)).rest ≠ [] := by
      intro hnil
      rw [hnil, recordsFrom] at hmore
      simp at hmore
    -- the rest of the text stands behind the line end `e` of the first record
    obtain ⟨body, e, hline⟩ := exists_readsLine hc hrest
    have hwhole := taken_append_rest .atStart [] (c :: text)
    generalize readFields .atStart [] (c :: text) = read at hfirst hmore hline hwhole
    obtain ⟨ended, gap, hleads, hle, hiff⟩ := ih hline.ends hmore.symm
    obtain ⟨hcount, hflat⟩ := @ReadsLine.filled (lines.getLastD last) _ _ _ _ hc hline
    have htaken : read.taken.getLastD (lines.getLastD last) = e := by
      rw [hline.taken, List.getLastD_concat]
    have htotal : countBehind endsFilledLine last (lines ++ read.taken ++ ended ++ gap) =
        countBehind endsFilledLine c body + 1 + countBehind endsFilledLine e (ended ++ gap) := by
      rw [List.append_assoc, List.append_assoc, countBehind_append, countBehind_append, hcount, htaken,
        (filled_of_gap hlast hlines).1, Nat.zero_add]
    have hflat : first.IsFlat ↔ countBehind endsFilledLine c body = 0 := by
      rw [hfirst, hflat]
      exact Iff.rfl
    refine ⟨lines ++ read.taken ++ ended, gap, ⟨?_, hleads.lineEnds, ?_⟩, ?_, ?_⟩
    · rw [hleads.place_eq, after_append, after_append]
    · obtain ⟨next, rest, hstarts, hnext⟩ := hleads.starts
      refine ⟨next, rest, ?_, hnext⟩
      rw [hcs, ← hwhole, hstarts]
      simp only [List.append_assoc]
    · rw [htotal, List.length_cons]
      omega
    · rw [htotal, List.length_cons, List.forall_mem_cons, hflat, ← hiff]
      omega

/-- The text in front of a record is what leads to it. -/
theorem LeadsTo.front_eq {text : String} {record : Record} {ended gap : List Char}
    (h : LeadsTo ⟨0, 1⟩ text.toList record ended gap) :
    record.front text = withoutMark (ended ++ gap) := by
  obtain ⟨c, rest, hstarts, hc, -⟩ := h.starts
  have hbyte : record.place.byte = Text.byteLength ended := by
    rw [h.place_eq, Place.after, Nat.zero_add]
  rw [Record.front, hstarts, List.append_assoc, hbyte, Text.takeBytes_append, List.drop_left,
    takeWhile_append_stop h.lineEnds (by simpa using hc)]

/-- A byte order mark takes three bytes. -/
theorem LeadsTo.mark {record : Record} {ended gap : List Char}
    (h : LeadsTo ⟨3, 1⟩ cs record ended gap) :
    LeadsTo ⟨0, 1⟩ ('\ufeff' :: cs) record ('\ufeff' :: ended) gap where
  place_eq := by
    have hsize : '\ufeff'.utf8Size = 3 := rfl
    rw [h.place_eq, Place.after, Place.after, Text.byteLength, hsize, Nat.zero_add,
      List.count_cons_of_ne (by decide)]
  lineEnds := h.lineEnds
  starts := by
    obtain ⟨c, rest, rfl, hstarts⟩ := h.starts
    exact ⟨c, rest, rfl, hstarts⟩

theorem withoutMark_of_ne (h : ∀ ds, cs ≠ '\ufeff' :: ds) : withoutMark cs = cs := by
  unfold withoutMark
  split
  · exact absurd rfl (h _)
  · rfl

/-- **A record starts behind its front**, in which at least one line that is not blank ends for each
record before it, and no other one exactly if no field of theirs goes over a line end. -/
theorem startsBehind_front {text : String} {earlier : List Record} {record : Record}
    {later : List Record} (h : records text = earlier ++ record :: later) :
    record.StartsBehind (record.front text) (withoutMark text.toList) ∧
    earlier.length ≤ countBehind endsFilledLine '\n' (record.front text) ∧
    (countBehind endsFilledLine '\n' (record.front text) = earlier.length ↔
      ∀ other ∈ earlier, other.IsFlat) := by
  have hstart : isLineEnd '\n' = true := rfl
  rw [records] at h
  split at h
  next cs hmark =>
    obtain ⟨ended, gap, hleads, hlines⟩ := exists_leadsTo hstart h
    have hfront : record.front text = ended ++ gap :=
      LeadsTo.front_eq (hmark ▸ hleads.mark)
    rw [hfront, hmark]
    exact ⟨hleads.starts, hlines⟩
  next hmark =>
    obtain ⟨ended, gap, hleads, hlines⟩ := exists_leadsTo hstart h
    have hfront : record.front text = ended ++ gap := by
      rw [hleads.front_eq]
      refine withoutMark_of_ne fun ds hds => ?_
      obtain ⟨c, rest, hstarts, -⟩ := hleads.starts
      exact hmark _ (by rw [hstarts, hds, List.cons_append])
    rw [hfront, withoutMark_of_ne hmark]
    exact ⟨hleads.starts, hlines⟩

end

end Csv

/-! ## Faults of a history -/

namespace Trade

def Fault.line? : Fault → Option Nat
  | fieldCount .. => none
  | missingDate line | invalidDate line _ | missingPnl line | invalidPnl line _ | infinitePnl line =>
    some line

variable {text : String} {fault : Fault} {line width index : Nat} {record : Csv.Record}
  {records : List Csv.Record}

theorem Fault.message_of_line? (h : fault.line? = some line) :
    ∃ cause, fault.message = "line " ++ toString line ++ ": " ++ cause := by
  have hcolon : ∀ {what cause : String}, ": " ++ cause = what →
      "line " ++ toString line ++ what = "line " ++ toString line ++ ": " ++ cause := by
    rintro _ cause rfl
    rw [← String.append_assoc]
  cases fault with
  | fieldCount => cases h
  | missingDate =>
    cases h
    exact ⟨"missing date column", hcolon (by decide)⟩
  | invalidDate _ cause =>
    cases h
    refine ⟨"invalid date format: " ++ cause.message, ?_⟩
    rw [← String.append_assoc, ← hcolon rfl]
    rfl
  | missingPnl =>
    cases h
    exact ⟨"missing pnl column", hcolon (by decide)⟩
  | invalidPnl _ cause =>
    cases h
    refine ⟨"invalid pnl value: " ++ cause.message, ?_⟩
    rw [← String.append_assoc, ← hcolon rfl]
    rfl
  | infinitePnl =>
    cases h
    exact ⟨"pnl must be finite", hcolon (by decide)⟩

/-- A record is counted as one line, and the header as another one. -/
theorem line_of_ofRecord (h : ofRecord width index record = .error fault)
    (hline : fault.line? = some line) : line = index + 2 := by
  rw [ofRecord] at h
  repeat' split at h
  all_goals cases h
  all_goals cases hline
  all_goals rfl

theorem not_tellsTrade_of_ofRecord (h : ofRecord width index record = .error fault) :
    ¬ ∃ trade, TellsTrade (record.row? width) trade := by
  rintro ⟨trade, htells⟩
  rw [ofRecord_eq_ok_iff.mpr htells] at h
  cases h

/-- Records are refused with the fault of the first one that tells no trade. -/
theorem ofRecords_eq_error_iff : ofRecords width index records = .error fault ↔
    ∃ before record after, records = before ++ record :: after ∧
      (∀ other ∈ before, ∃ trade, TellsTrade (other.row? width) trade) ∧
      ofRecord width (index + before.length) record = .error fault := by
  induction records generalizing index with
  | nil => simp [ofRecords]
  | cons first records ih =>
    rw [ofRecords, bind_eq_error_iff]
    simp only [bind_eq_error_iff, ih, pure_eq_ok]
    constructor
    · rintro (h | ⟨trade, htrade, h | ⟨trades, -, h⟩⟩)
      · exact ⟨[], first, records, rfl, by simp, h⟩
      · obtain ⟨before, record, after, rfl, hbefore, h⟩ := h
        refine ⟨first :: before, record, after, rfl, ?_, ?_⟩
        · exact List.forall_mem_cons.mpr ⟨⟨trade, ofRecord_eq_ok_iff.mp htrade⟩, hbefore⟩
        · rw [List.length_cons, Nat.add_comm before.length, ← Nat.add_assoc]
          exact h
      · cases h
    · rintro ⟨before, record, after, hrecords, hbefore, h⟩
      cases before with
      | nil =>
        obtain ⟨rfl, rfl⟩ := List.cons.inj hrecords
        exact .inl h
      | cons next before =>
        obtain ⟨rfl, rfl⟩ := List.cons.inj hrecords
        obtain ⟨⟨trade, htrade⟩, hbefore⟩ := List.forall_mem_cons.mp hbefore
        refine .inr ⟨trade, ofRecord_eq_ok_iff.mpr htrade, .inl ⟨before, record, after, rfl, hbefore, ?_⟩⟩
        rw [List.length_cons, Nat.add_comm before.length, ← Nat.add_assoc] at h
        exact h

theorem readAll_eq_error_iff : readAll text = .error fault ↔
    ∃ header before record after, Csv.records text = header :: (before ++ record :: after) ∧
      (∀ other ∈ before, ∃ trade, TellsTrade (other.row? header.fields.length) trade) ∧
      ofRecord header.fields.length before.length record = .error fault := by
  rw [readAll]
  cases Csv.records text with
  | nil => simp
  | cons header records =>
    simp only [bind_eq_error_iff, ofRecords_eq_error_iff, pure_eq_ok, reduceCtorEq, and_false,
      exists_false, or_false, Nat.zero_add]
    constructor
    · rintro ⟨before, record, after, rfl, h⟩
      exact ⟨header, before, record, after, rfl, h⟩
    · rintro ⟨_, before, record, after, hrecords, h⟩
      obtain ⟨rfl, rfl⟩ := List.cons.inj hrecords
      exact ⟨before, record, after, rfl, h⟩

/-! ## Top theorem -/

/-- **A fault names the line of its record exactly if the records before it take one line each.**  The
fault is that of the first record that tells no trade.  The number of its line falls short by the blank
lines in front of the record, and by more exactly if a field of a record before it goes over a line
end. -/
theorem line_eq_lineAfter_iff (h : readAll text = .error fault) (hline : fault.line? = some line) :
    (∃ cause, fault.message = "line " ++ toString line ++ ": " ++ cause) ∧
    ∃ header before record after,
      Csv.records text = header :: (before ++ record :: after) ∧
      (∀ other ∈ before, ∃ trade, TellsTrade (other.row? header.fields.length) trade) ∧
      (¬ ∃ trade, TellsTrade (record.row? header.fields.length) trade) ∧
      let front := record.front text
      record.StartsBehind front (Csv.withoutMark text.toList) ∧
      line + Csv.blankLines front ≤ Csv.lineAfter front ∧
      (line + Csv.blankLines front = Csv.lineAfter front ↔
        ∀ other ∈ header :: before, other.IsFlat) ∧
      (line = Csv.lineAfter front ↔
        Csv.blankLines front = 0 ∧ ∀ other ∈ header :: before, other.IsFlat) := by
  refine ⟨Fault.message_of_line? hline, ?_⟩
  obtain ⟨header, before, record, after, hrecords, hbefore, hrecord⟩ := readAll_eq_error_iff.mp h
  refine ⟨header, before, record, after, hrecords, hbefore, not_tellsTrade_of_ofRecord hrecord, ?_⟩
  have hsplit : Csv.records text = (header :: before) ++ record :: after := hrecords
  obtain ⟨hstarts, hle, hflat⟩ := Csv.startsBehind_front hsplit
  have hlines : Csv.lineAfter (record.front text) = Csv.blankLines (record.front text) +
      Csv.countBehind Csv.endsFilledLine '\n' (record.front text) + 1 := by
    rw [Csv.lineAfter, Csv.countBehind_endsLine, Csv.blankLines]
  have hcount := line_of_ofRecord hrecord hline
  rw [List.length_cons] at hle hflat
  refine ⟨hstarts, ?_⟩
  rw [hlines, ← hflat]
  omega

/-- Line ends of two characters, a byte order mark, a comma in quotes and a blank line further down do
not count: the second trade stands on the third line. -/
theorem line_eq_lineAfter_iff_returns :
    let text := "\ufeffdate,pnl,note\r\n2024-03-01,5,\"a, \"\"b\"\"\"\r\n2024-03-02,inf,\r\n\r\n"
    readAll text = .error (.infinitePnl 3) ∧ (Fault.infinitePnl 3).line? = some 3 ∧
    ∃ header before record after,
      Csv.records text = header :: (before ++ record :: after) ∧
      (∀ other ∈ before, ∃ trade, TellsTrade (other.row? header.fields.length) trade) ∧
      (¬ ∃ trade, TellsTrade (record.row? header.fields.length) trade) ∧
      Csv.lineAfter (record.front text) = 3 := by
  intro text
  have hread : readAll text = .error (.infinitePnl 3) := by decide +kernel
  have hblank : ∀ record ∈ Csv.records text, Csv.blankLines (record.front text) = 0 := by
    decide +kernel
  have hflat : ∀ record ∈ Csv.records text, record.IsFlat := by decide +kernel
  obtain ⟨-, header, before, record, after, hrecords, hbefore, hrecord, -, -, -, hiff⟩ :=
    line_eq_lineAfter_iff hread rfl
  refine ⟨hread, rfl, header, before, record, after, hrecords, hbefore, hrecord, ?_⟩
  rw [hrecords, ← List.cons_append] at hblank hflat
  exact (hiff.mpr ⟨hblank record (by simp), fun other hother =>
    hflat other (List.mem_append_left _ hother)⟩).symm

/-- A blank line in front of a trade, or a note of two lines in the trade before it, puts it one line
further down than its fault says. -/
theorem line_ne_lineAfter_shifted :
    let blank := "date,pnl\n\n2024-03-01,lots\n"
    let note := "date,pnl,note\n2024-03-01,5,\"two\nlines\"\n2024-03-02,lots,\n"
    (readAll blank = .error (.invalidPnl 2 .invalid) ∧
      (Csv.records blank).map (fun record => Csv.lineAfter (record.front blank)) = [1, 3]) ∧
    (readAll note = .error (.invalidPnl 3 .invalid) ∧
      (Csv.records note).map (fun record => Csv.lineAfter (record.front note)) = [1, 2, 4]) := by
  decide +kernel

end Trade

end TradePlan
