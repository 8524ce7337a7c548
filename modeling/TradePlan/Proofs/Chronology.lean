import Mathlib.Data.List.Forall2
import TradePlan.History.Trades
import TradePlan.Proofs.Outcome
import TradePlan.Risk.Ladder

/-!
# Histories in the order of time

A history is read if each of its rows tells a trade, and then it is the trades of the file in the
order of time, with those of one day as the file has them:

    Trade.readAll text = .ok trades →
      ∃ inFile, Forall₂ TellsTrade (Csv.rows text) inFile ∧ IsChronology inFile trades

There is one such order only, so it depends on nothing but the rows of each day and their order.
-/

namespace TradePlan

/-! ## The order of dates -/

namespace Date

theorem le_refl (a : Date) : a.le a = true := by simp [le]

theorem le_trans {a b c : Date} (hab : a.le b = true) (hbc : b.le c = true) : a.le c = true := by
  simp only [le, decide_eq_true_eq] at *
  omega

theorem le_total (a b : Date) : (a.le b || b.le a) = true := by
  simp only [le, Bool.or_eq_true, decide_eq_true_eq]
  omega

theorem le_antisymm {a b : Date} (hab : a.le b = true) (hba : b.le a = true) : a = b := by
  simp only [le, decide_eq_true_eq] at hab hba
  have hyear : a.year = b.year := by omega
  have hmonth : a.month = b.month := by omega
  have hday : a.day = b.day := by omega
  cases a
  cases b
  simp_all

end Date

/-! ## Chronologies -/

/-- The trades of a list in the order of time; those of one day keep their order. -/
structure IsChronology (inFile trades : List Trade) : Prop where
  perm : trades.Perm inFile
  inOrder : trades.Pairwise fun a b => a.date.le b.date = true
  sameDay : ∀ date, trades.filter (·.date = date) = inFile.filter (·.date = date)

namespace Trade

theorem exists_mem_of_filter_eq {trade : Trade} {trades others : List Trade}
    (h : ∀ date, trades.filter (·.date = date) = others.filter (·.date = date))
    (hmem : trade ∈ trades) : trade ∈ others := by
  have hfilter : trade ∈ trades.filter (·.date = trade.date) := by simp [hmem]
  rw [h trade.date] at hfilter
  exact List.mem_of_mem_filter hfilter

/-- **The trades of each day in their order fix a list in the order of time.** -/
theorem eq_of_filter_eq {trades others : List Trade}
    (htrades : trades.Pairwise fun a b => a.date.le b.date = true)
    (hothers : others.Pairwise fun a b => a.date.le b.date = true)
    (h : ∀ date, trades.filter (·.date = date) = others.filter (·.date = date)) :
    trades = others := by
  induction trades generalizing others with
  | nil =>
    refine (List.eq_nil_iff_forall_not_mem.mpr fun trade hmem => ?_).symm
    exact absurd (exists_mem_of_filter_eq (fun date => (h date).symm) hmem) List.not_mem_nil
  | cons trade trades ih =>
    have hmem : trade ∈ others := exists_mem_of_filter_eq h List.mem_cons_self
    cases others with
    | nil => cases hmem
    | cons other others =>
      obtain ⟨hfirst, htail⟩ := List.pairwise_cons.mp htrades
      obtain ⟨hfirst', htail'⟩ := List.pairwise_cons.mp hothers
      have hmem' : other ∈ trade :: trades :=
        exists_mem_of_filter_eq (fun date => (h date).symm) List.mem_cons_self
      -- each of the two first trades stands in the other list, so neither is earlier
      have hle : trade.date.le other.date = true := by
        rcases List.mem_cons.mp hmem' with rfl | hmem'
        · exact Date.le_refl _
        · exact hfirst other hmem'
      have hge : other.date.le trade.date = true := by
        rcases List.mem_cons.mp hmem with rfl | hmem
        · exact Date.le_refl _
        · exact hfirst' trade hmem
      have hdate : trade.date = other.date := Date.le_antisymm hle hge
      have hday := h trade.date
      rw [List.filter_cons_of_pos (by simp), List.filter_cons_of_pos (by simp [hdate])] at hday
      obtain ⟨rfl, -⟩ := List.cons.inj hday
      have hrest : ∀ date, trades.filter (·.date = date) = others.filter (·.date = date) := by
        intro date
        have hdays := h date
        by_cases hsame : trade.date = date
        · rw [List.filter_cons_of_pos (by simp [hsame]), List.filter_cons_of_pos (by simp [hsame])]
            at hdays
          exact (List.cons.inj hdays).2
        · rwa [List.filter_cons_of_neg (by simp [hsame]), List.filter_cons_of_neg (by simp [hsame])]
            at hdays
      rw [ih htail htail' hrest]

/-- Sorting by the date gives the order of time. -/
theorem isChronology_chronological (trades : List Trade) :
    IsChronology trades (chronological trades) := by
  have htrans : ∀ a b c : Trade, a.date.le b.date = true → b.date.le c.date = true →
      a.date.le c.date = true := fun _ _ _ => Date.le_trans
  have htotal : ∀ a b : Trade, (a.date.le b.date || b.date.le a.date) = true :=
    fun a b => Date.le_total a.date b.date
  have hperm : (chronological trades).Perm trades := List.mergeSort_perm trades _
  refine ⟨hperm, List.pairwise_mergeSort htrans htotal trades, fun date => ?_⟩
  -- the trades of a day are in order as they stand, so they are a sublist of the sorted list
  have hday : (trades.filter (·.date = date)).Pairwise fun a b => a.date.le b.date = true := by
    refine List.pairwise_of_forall_mem_list fun a ha b hb => ?_
    simp only [List.mem_filter, decide_eq_true_eq] at ha hb
    rw [ha.2, hb.2]
    exact Date.le_refl date
  have hsub := List.sublist_mergeSort htrans htotal hday List.filter_sublist
  have hsub' := hsub.filter (·.date = date)
  simp only [List.filter_filter, Bool.and_self] at hsub'
  exact (hsub'.eq_of_length (hperm.filter _).length_eq.symm).symm

end Trade

theorem IsChronology.unique {inFile trades others : List Trade} (h : IsChronology inFile trades)
    (hothers : IsChronology inFile others) : trades = others :=
  Trade.eq_of_filter_eq h.inOrder hothers.inOrder fun date =>
    (h.sameDay date).trans (hothers.sameDay date).symm

/-! ## Rows -/

namespace Csv

/-- The fields of a record, if there are as many as in the header. -/
def Record.row? (width : Nat) (record : Record) : Option (List String) :=
  if record.fields.length = width then some record.fields else none

/-- What a text gives for each record after the header: its fields, or nothing for a record that is
refused. -/
def rows (text : String) : List (Option (List String)) :=
  match records text with
  | [] => []
  | header :: records => records.map (·.row? header.fields.length)

end Csv

/-- A row tells a trade: a date in its first column and a finite number in its second. -/
inductive TellsTrade : Option (List String) → Trade → Prop where
  | intro {dateText pnlText : String} {more : List String} {trade : Trade} :
      Date.read (Text.trim dateText) = .ok trade.date →
      Decimal.read (Text.trim pnlText) = .ok trade.pnl → trade.pnl.isFinite = true →
      TellsTrade (some (dateText :: pnlText :: more)) trade

/-- The date in the first column of a row. -/
def rowDate? : Option (List String) → Option Date
  | some (dateText :: _) => (Date.read (Text.trim dateText)).toOption
  | _ => none

/-- Rows in another order, but with those of each day in the same order. -/
structure IsRearranged (rows others : List (Option (List String))) : Prop where
  perm : rows.Perm others
  sameDay : ∀ date, rows.filter (rowDate? · = some date) = others.filter (rowDate? · = some date)

theorem TellsTrade.unique {row : Option (List String)} {trade other : Trade}
    (h : TellsTrade row trade) (hother : TellsTrade row other) : trade = other := by
  cases h with
  | intro hdate hpnl _ =>
    cases hother with
    | intro hdate' hpnl' _ =>
      have hdates := Except.ok.inj (hdate.symm.trans hdate')
      have hpnls := Except.ok.inj (hpnl.symm.trans hpnl')
      cases trade
      cases other
      simp_all

theorem TellsTrade.rowDate? {row : Option (List String)} {trade : Trade} (h : TellsTrade row trade) :
    rowDate? row = some trade.date := by
  cases h with
  | intro hdate _ _ => rw [TradePlan.rowDate?, hdate, Except.toOption]

/-! ## Reading a history -/

namespace Trade

theorem ofRecord_eq_ok_iff {width index : Nat} {record : Csv.Record} {trade : Trade} :
    ofRecord width index record = .ok trade ↔ TellsTrade (record.row? width) trade := by
  rw [ofRecord, Csv.Record.row?]
  by_cases hwidth : record.fields.length = width
  · rw [if_neg (not_not.mpr hwidth), if_pos hwidth]
    constructor
    · intro h
      split at h
      · cases h
      next dateText fields hfields =>
      split at h
      · cases h
      next date hdate =>
      split at h
      · cases h
      next pnlText more =>
      split at h
      · cases h
      next pnl hpnl =>
      split at h
      · next hfinite =>
        obtain rfl := Except.ok.inj h
        rw [hfields]
        exact .intro hdate hpnl hfinite
      · cases h
    · intro h
      generalize record.fields = fields at h
      cases h with
      | intro hdate hpnl hfinite => simp only [hdate, hpnl, hfinite, if_true]
  · rw [if_pos hwidth, if_neg hwidth]
    exact ⟨fun h => (by cases h), fun h => (by cases h)⟩

theorem ofRecords_eq_ok_iff {width index : Nat} {records : List Csv.Record} {trades : List Trade} :
    ofRecords width index records = .ok trades ↔
      List.Forall₂ TellsTrade (records.map (·.row? width)) trades := by
  induction records generalizing index trades with
  | nil =>
    rw [ofRecords, List.map_nil, List.forall₂_nil_left_iff]
    exact ⟨fun h => (Except.ok.inj h).symm, fun h => congrArg Except.ok h.symm⟩
  | cons record records ih =>
    rw [ofRecords, List.map_cons, List.forall₂_cons_left_iff, bind_eq_ok_iff]
    simp only [ofRecord_eq_ok_iff, bind_eq_ok_iff, ih]
    constructor
    · rintro ⟨trade, htrade, rest, hrest, htrades⟩
      exact ⟨trade, rest, htrade, hrest, (Except.ok.inj htrades).symm⟩
    · rintro ⟨trade, rest, htrade, hrest, rfl⟩
      exact ⟨trade, htrade, rest, hrest, rfl⟩

/-- **A history is the trades of its rows in the order of time.** -/
theorem readAll_eq_ok_iff {text : String} {trades : List Trade} :
    readAll text = .ok trades ↔
      ∃ inFile, List.Forall₂ TellsTrade (Csv.rows text) inFile ∧ IsChronology inFile trades := by
  have hunique : ∀ inFile, chronological inFile = trades ↔ IsChronology inFile trades := fun inFile =>
    ⟨fun h => h ▸ isChronology_chronological inFile,
      (isChronology_chronological inFile).unique⟩
  rw [readAll, Csv.rows]
  cases Csv.records text with
  | nil =>
    have hnil : chronological [] = [] := List.mergeSort_nil
    simp only [List.forall₂_nil_left_iff, exists_eq_left, ← hunique, hnil]
    exact ⟨Except.ok.inj, congrArg Except.ok⟩
  | cons header records =>
    rw [bind_eq_ok_iff]
    simp only [ofRecords_eq_ok_iff, ← hunique]
    exact exists_congr fun inFile => and_congr_right fun _ =>
      ⟨Except.ok.inj, congrArg Except.ok⟩

/-! ## Rearranged histories -/

theorem exists_forall₂_iff {rows : List (Option (List String))} :
    (∃ inFile, List.Forall₂ TellsTrade rows inFile) ↔ ∀ row ∈ rows, ∃ trade, TellsTrade row trade := by
  induction rows with
  | nil => simp
  | cons row rows ih =>
    rw [List.forall_mem_cons, ← ih]
    simp only [List.forall₂_cons_left_iff]
    constructor
    · rintro ⟨_, trade, inFile, htrade, hrows, -⟩
      exact ⟨⟨trade, htrade⟩, inFile, hrows⟩
    · rintro ⟨⟨trade, htrade⟩, inFile, hrows⟩
      exact ⟨_, trade, inFile, htrade, hrows, rfl⟩

/-- The rows of a day tell the trades of that day. -/
theorem forall₂_filter {rows : List (Option (List String))} {inFile : List Trade}
    (h : List.Forall₂ TellsTrade rows inFile) (date : Date) :
    List.Forall₂ TellsTrade (rows.filter (rowDate? · = some date)) (inFile.filter (·.date = date)) :=
  List.rel_filter (fun _ _ htells => by simp [htells.rowDate?]) h

/-- Rearranged rows give the same history. -/
theorem readAll_of_isRearranged {text other : String} {trades : List Trade}
    (h : IsRearranged (Csv.rows text) (Csv.rows other)) (hread : readAll text = .ok trades) :
    readAll other = .ok trades := by
  obtain ⟨inFile, hrows, hchronology⟩ := readAll_eq_ok_iff.mp hread
  obtain ⟨others, hothers⟩ := exists_forall₂_iff.mpr fun row hrow =>
    exists_forall₂_iff.mp ⟨inFile, hrows⟩ row (h.perm.mem_iff.mpr hrow)
  have hunique : Relator.RightUnique TellsTrade := fun _ _ _ => TellsTrade.unique
  have hdays : ∀ date, inFile.filter (·.date = date) = others.filter (·.date = date) := by
    intro date
    have hday := forall₂_filter hrows date
    rw [h.sameDay date] at hday
    exact List.right_unique_forall₂' hunique hday (forall₂_filter hothers date)
  have hsorted := isChronology_chronological others
  have hsame : chronological others = trades := by
    refine eq_of_filter_eq hsorted.inOrder hchronology.inOrder fun date => ?_
    rw [hsorted.sameDay, hchronology.sameDay, hdays]
  exact readAll_eq_ok_iff.mpr ⟨others, hothers, hsame ▸ hsorted⟩

end Trade

theorem IsRearranged.symm {rows others : List (Option (List String))} (h : IsRearranged rows others) :
    IsRearranged others rows :=
  ⟨h.perm.symm, fun date => (h.sameDay date).symm⟩

/-! ## Top theorem -/

/-- **A history is a stable chronological reading of its file.**  It is read if each row tells a trade,
so one bad row refuses it.  Its trades are those of the rows, each once, in the order of time, and
those of one day in the order of the file.  Rearranged rows, with those of each day in the same order,
give the same trades, so a ladder comes to the same state and risk. -/
theorem Trade.readAll_chronology (text : String) :
    ((∃ trades, readAll text = .ok trades) ↔
      ∀ row ∈ Csv.rows text, ∃ trade, TellsTrade row trade) ∧
    (∀ trades, readAll text = .ok trades →
      ∃ inFile, List.Forall₂ TellsTrade (Csv.rows text) inFile ∧ IsChronology inFile trades) ∧
    ∀ other, IsRearranged (Csv.rows text) (Csv.rows other) →
      (∀ trades, readAll text = .ok trades ↔ readAll other = .ok trades) ∧
      ∀ (ladder : RiskLadder) (trades others : List Trade),
        readAll text = .ok trades → readAll other = .ok others →
          ladder.replay (trades.map Trade.pnl) = ladder.replay (others.map Trade.pnl) ∧
          ladder.riskPercent (ladder.replay (trades.map Trade.pnl)) =
            ladder.riskPercent (ladder.replay (others.map Trade.pnl)) := by
  refine ⟨?_, fun trades => readAll_eq_ok_iff.mp, fun other h => ?_⟩
  · rw [← exists_forall₂_iff]
    constructor
    · rintro ⟨trades, hread⟩
      obtain ⟨inFile, hrows, -⟩ := readAll_eq_ok_iff.mp hread
      exact ⟨inFile, hrows⟩
    · rintro ⟨inFile, hrows⟩
      exact ⟨_, readAll_eq_ok_iff.mpr ⟨inFile, hrows, isChronology_chronological inFile⟩⟩
  · refine ⟨fun trades => ⟨readAll_of_isRearranged h, readAll_of_isRearranged h.symm⟩, ?_⟩
    intro ladder trades others htrades hothers
    obtain rfl : trades = others :=
      Except.ok.inj ((readAll_of_isRearranged h htrades).symm.trans hothers)
    exact ⟨rfl, rfl⟩

/-- The two trades of the second of March keep their order, whether the trade of the day before stands
between them or behind them; header, line ends and empty lines do not count.  In the order of the file
the ladder would end with two wins and go up, and in the order of time it stays. -/
theorem Trade.readAll_chronology_march :
    let text := "date,pnl\n2024-03-02,-50\n2024-03-01,120.5\n2024-03-02,10\n"
    let other := "closed,result\r\n\r\n2024-03-02,-50\r\n2024-03-02,10\r\n2024-03-01,120.5"
    let rows := [some ["2024-03-02", "-50"], some ["2024-03-01", "120.5"], some ["2024-03-02", "10"]]
    let first : Trade := ⟨⟨2024, 3, 1, by decide⟩, 120.5⟩
    let loss : Trade := ⟨⟨2024, 3, 2, by decide⟩, -50⟩
    let win : Trade := ⟨⟨2024, 3, 2, by decide⟩, 10⟩
    Csv.rows text = rows ∧ IsRearranged (Csv.rows text) (Csv.rows other) ∧
    (∃ trades, readAll text = .ok trades) ∧
    readAll text = .ok [first, loss, win] ∧
    (∃ inFile, List.Forall₂ TellsTrade rows inFile ∧ IsChronology inFile [first, loss, win]) ∧
    readAll other = .ok [first, loss, win] ∧
    RiskLadder.standard.riskPercent
      (RiskLadder.standard.replay ([loss, first, win].map Trade.pnl)) = 0.5 ∧
    RiskLadder.standard.riskPercent
      (RiskLadder.standard.replay ([first, loss, win].map Trade.pnl)) = 0.25 := by
  intro text other rows first loss win
  have hrows : Csv.rows text = rows := by decide +kernel
  have hothers : Csv.rows other =
      [some ["2024-03-02", "-50"], some ["2024-03-02", "10"], some ["2024-03-01", "120.5"]] := by
    decide +kernel
  have hloss : TellsTrade (some ["2024-03-02", "-50"]) loss :=
    .intro rfl (eq_ok_of_toOption (by decide +kernel)) (by decide +kernel)
  have hfirst : TellsTrade (some ["2024-03-01", "120.5"]) first :=
    .intro rfl (eq_ok_of_toOption (by decide +kernel)) (by decide +kernel)
  have hwin : TellsTrade (some ["2024-03-02", "10"]) win :=
    .intro rfl (eq_ok_of_toOption (by decide +kernel)) (by decide +kernel)
  have hday : loss.date = win.date := rfl
  have hdiffer : first.date ≠ win.date := by decide
  have hmoved : IsRearranged (Csv.rows text) (Csv.rows other) := by
    rw [hrows, hothers]
    refine ⟨.cons _ (.swap _ _ _), fun date => ?_⟩
    by_cases hdate : first.date = date
    · simp [hloss.rowDate?, hfirst.rowDate?, hwin.rowDate?, rows, hday, ← hdate, hdiffer.symm]
    · simp [List.filter_cons, hloss.rowDate?, hfirst.rowDate?, hwin.rowDate?, rows, hday, hdate]
  have horder : IsChronology [loss, first, win] [first, loss, win] := by
    refine ⟨.swap _ _ _, by decide, fun date => ?_⟩
    by_cases hdate : first.date = date
    · simp [hday, ← hdate, hdiffer.symm]
    · simp [List.filter_cons, hdate]
  have hread : readAll text = .ok [first, loss, win] :=
    readAll_eq_ok_iff.mpr ⟨_, hrows ▸ .cons hloss (.cons hfirst (.cons hwin .nil)), horder⟩
  obtain ⟨hiff, hchronology, hmoves⟩ := readAll_chronology text
  obtain ⟨hsame, hladder⟩ := hmoves other hmoved
  have hother := (hsame _).mp hread
  refine ⟨hrows, hmoved, hiff.mpr ?_, hread, hrows ▸ hchronology _ hread, hother, by decide +kernel, ?_⟩
  · rw [hrows]
    simp only [rows, List.forall_mem_cons]
    exact ⟨⟨_, hloss⟩, ⟨_, hfirst⟩, ⟨_, hwin⟩, by simp⟩
  · rw [(hladder .standard _ _ hread hother).2]
    decide +kernel

end TradePlan
