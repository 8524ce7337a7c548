import TradePlan.Proofs.Nesting
import TradePlan.Proofs.Written

/-!
# The stretches of arguments

In the postfix order of a formula, each call stands right after the stretches of the arguments that
it was written with, and the stretch of an argument is what its tokens are converted to by
themselves:

    Postfix.ofTokens tokens = .ok items →
      List.Forall₂ Records (callPoints [] items) (writtenCalls tokens)            (records_ofTokens)

The conversion goes along with the brackets that the tokens leave open.  For each open call there is
a conversion of the argument under way alone, found again above what was there at its beginning.
-/

namespace TradePlan

open Postfix Conversion

/-! ## Stretches -/

/-- The tokens of an argument are converted to the items by themselves, and these leave one
value. -/
def IsStretch (argument : List Token) (items : List Postfix) : Prop :=
  ofTokens argument = .ok items ∧ height items = 1

/-- The items end with the stretches of some arguments. -/
def EndsWith (items : List Postfix) (args : List (List Token)) : Prop :=
  ∃ front stretches, items = front ++ List.flatten stretches ∧ List.Forall₂ IsStretch args stretches

theorem endsWith_nil (items : List Postfix) : EndsWith items [] :=
  ⟨items, [], (List.append_nil items).symm, .nil⟩

theorem EndsWith.concat {items stretch : List Postfix} {args : List (List Token)}
    {argument : List Token} (h : EndsWith items args) (hstretch : IsStretch argument stretch) :
    EndsWith (items ++ stretch) (args ++ [argument]) := by
  obtain ⟨front, stretches, rfl, hargs⟩ := h
  refine ⟨front, stretches ++ [stretch], ?_, List.rel_append hargs (.cons hstretch .nil)⟩
  rw [List.flatten_append, List.flatten_singleton, List.append_assoc]

theorem IsStretch.ne_nil {argument : List Token} {stretch : List Postfix}
    (h : IsStretch argument stretch) : argument ≠ [] := by
  rintro rfl
  obtain rfl : [] = stretch := Except.ok.inj h.1
  cases h.2

/-! ## Points of calls -/

/-- An item for a call, with the items in front of it. -/
structure CallPoint where
  before : List Postfix
  function : String
  argc : Nat

/-- The calls among items that follow others. -/
def callPoints (before : List Postfix) : List Postfix → List CallPoint
  | [] => []
  | .call function argc :: items =>
    ⟨before, function, argc⟩ :: callPoints (before ++ [.call function argc]) items
  | item :: items => callPoints (before ++ [item]) items

theorem callPoints_append (before items others : List Postfix) :
    callPoints before (items ++ others) =
      callPoints before items ++ callPoints (before ++ items) others := by
  induction items generalizing before with
  | nil => rw [List.append_nil]; rfl
  | cons item items ih => cases item <;> simp [callPoints, ih]

theorem callPoints_operators (before : List Postfix) (ops : List Operator) :
    callPoints before (ops.map .operator) = [] := by
  induction ops generalizing before with
  | nil => rfl
  | cons op ops ih => exact ih _

/-- The point of a call comes right after the stretches of the arguments of a written call. -/
def Records (point : CallPoint) (call : Call (List Token)) : Prop :=
  point.function = call.function ∧ point.argc = call.args.length ∧ EndsWith point.before call.args

/-- The items go on from an output, and what they add records some calls. -/
def Completes (output : Output) (calls : List (Call (List Token))) (items : List Postfix) : Prop :=
  ∃ more, items = output.items.reverse ++ more ∧
    List.Forall₂ Records (callPoints output.items.reverse more) calls

theorem Completes.extend {output : Output} {added items : List Postfix}
    {first calls : List (Call (List Token))}
    (hfirst : List.Forall₂ Records (callPoints output.items.reverse added) first)
    (h : Completes (output.extend added) calls items) : Completes output (first ++ calls) items := by
  obtain ⟨more, rfl, hmore⟩ := h
  rw [Output.items_extend, List.reverse_append, List.reverse_reverse] at hmore ⊢
  refine ⟨added ++ more, List.append_assoc _ _ _, ?_⟩
  rw [callPoints_append]
  exact List.rel_append hfirst hmore

theorem Completes.call {output : Output} {function : String} {argc : Nat} {items : List Postfix}
    {call : Call (List Token)} {calls : List (Call (List Token))}
    (hrecords : Records ⟨output.items.reverse, function, argc⟩ call)
    (h : Completes (output.push (.call function argc)) calls items) :
    Completes output (call :: calls) items :=
  @Completes.extend output [.call function argc] items [call] calls (.cons hrecords .nil) h

theorem Completes.operators {output : Output} {ops : List Operator} {items : List Postfix}
    {calls : List (Call (List Token))}
    (h : Completes (output.extend (ops.map .operator)) calls items) :
    Completes output calls items := by
  refine @Completes.extend output (ops.map .operator) items [] calls ?_ h
  rw [callPoints_operators]
  exact .nil

/-! ## Arguments under way -/

/-- By themselves the tokens lead to the conversion, in front of further tokens. -/
def Leads (rest tokens : List Token) (inner : Conversion) : Prop :=
  ∃ opened, ∀ other, (other.head? = some .leftParen → rest.head? = some .leftParen) →
    run ⟨.empty, [], opened⟩ (tokens ++ other) = run inner other

theorem leads_nil (rest : List Token) (opened : Bool) : Leads rest [] ⟨.empty, [], opened⟩ :=
  ⟨opened, fun _ _ => rfl⟩

theorem Leads.step {consumed rest tokens : List Token} {inner after : Conversion}
    (h : Leads (consumed ++ rest) tokens inner) (hstep : Step inner consumed rest after) :
    Leads rest (tokens ++ consumed) after := by
  obtain ⟨opened, h⟩ := h
  refine ⟨opened, fun other hother => ?_⟩
  -- only the first of the tokens that follow matters, and a step consumes at least one
  have hhead : (consumed ++ other).head? = (consumed ++ rest).head? := by
    obtain ⟨token, tail, rfl⟩ := List.exists_cons_of_ne_nil hstep.ne_nil
    rfl
  rw [List.append_assoc, h (consumed ++ other) (by rw [hhead]; exact id), run_of_step hstep hother]

/-- By themselves the tokens are converted to what the conversion is finished to. -/
def Finishes (tokens : List Token) (inner : Conversion) : Prop :=
  ofTokens tokens = finish inner.output inner.pending

/-- Before the first token it does not matter whether a parenthesis has just been opened. -/
theorem run_start (token : Token) (rest : List Token) :
    run ⟨.empty, [], true⟩ (token :: rest) = run start (token :: rest) := by
  cases token with
  | identifier name =>
    cases rest with
    | nil => rfl
    | cons next rest => cases next <;> rfl
  | _ => rfl

theorem Leads.finishes {rest tokens : List Token} {inner : Conversion}
    (h : Leads rest tokens inner) : Finishes tokens inner := by
  obtain ⟨opened, h⟩ := h
  have hrun : run ⟨.empty, [], opened⟩ tokens = .ok inner := by
    have h := h [] (by simp)
    rwa [List.append_nil] at h
  cases tokens with
  | nil =>
    obtain rfl := Except.ok.inj hrun
    rfl
  | cons token tokens =>
    have hstart : start.run (token :: tokens) = .ok inner := by
      cases opened with
      | false => exact hrun
      | true => rw [← run_start, hrun]
    rw [Finishes, ofTokens, hstart, ok_bind]

theorem Finishes.step {tokens rest : List Token} {inner after : Conversion}
    (h : Finishes tokens inner) (hopened : inner.opened = false)
    (hstep : Step inner [.rightParen] rest after) : Finishes tokens after := by
  rw [Finishes, h]
  cases hstep with
  | @closeStray output ops opened _ =>
    have h := finish_waiting output ops []
    rwa [List.append_nil] at h
  | closeParen => exact finish_waiting _ _ _
  | closeCall hdepth =>
    rw [finish_waiting, finish, Output.checkArgument_eq_ok_iff.mpr hdepth]
    rfl
  | closeEmpty => cases hopened

/-! ## Open calls -/

/-- A call that is open below `depth` further brackets: the arguments that have ended end the output
of its beginning, and `progress` relates the tokens of the one under way to a conversion of their
own. -/
def Frame (progress : List Token → Conversion → Prop) (c : Conversion) (depth : Nat)
    (function : String) (ended : List (List Token)) (current : List Token) : Prop :=
  ∃ base outer inner, c = inner.above base (.call function ended.length base.depth :: outer) ∧
    (brackets inner.pending).length = depth ∧ progress current inner ∧
    EndsWith base.items.reverse ended

/-- All calls among the open brackets, the first of which is open below `depth` others. -/
def Frames (progress : List Token → Conversion → Prop) (c : Conversion) :
    Nat → List Bracket → Prop
  | _, [] => True
  | depth, .paren :: outside => Frames progress c (depth + 1) outside
  | depth, .call function ended current :: outside =>
    Frame progress c depth function ended current ∧ Frames progress c (depth + 1) outside

section

variable {progress further : List Token → Conversion → Prop} {c next : Conversion}
  {consumed rest tokens : List Token}

/-- A step is a step inside each call that it does not close. -/
theorem Frame.of_step {depth depth' : Nat} {function : String} {ended : List (List Token)}
    {current : List Token} (hstep : Step c consumed rest next)
    (hprogress : ∀ {current inner after}, inner.opened = c.opened → progress current inner →
      Step inner consumed rest after → further (current ++ tokens) after)
    (hinside : consumed = [.comma] ∨ consumed = [.rightParen] → depth ≠ 0)
    (hdepth : (brackets next.pending).length + depth = (brackets c.pending).length + depth')
    (h : Frame progress c depth function ended current) :
    Frame further next depth' function ended (current ++ tokens) := by
  obtain ⟨base, outer, inner, rfl, hbrackets, hcurrent, hended⟩ := h
  obtain ⟨after, hafter, rfl⟩ := hstep.of_above ⟨_, outer, rfl, rfl⟩ fun h hnil =>
    hinside h (by rw [← hbrackets, hnil, List.length_nil])
  refine ⟨base, outer, after, rfl, ?_, @hprogress current inner after rfl hcurrent hafter,
    hended⟩
  rw [brackets_above, brackets_above, List.length_append, List.length_append] at hdepth
  omega

theorem Frames.of_step {depth depth' : Nat} {bs : List Bracket} (hstep : Step c consumed rest next)
    (hprogress : ∀ {current inner after}, inner.opened = c.opened → progress current inner →
      Step inner consumed rest after → further (current ++ tokens) after)
    (hinside : consumed = [.comma] ∨ consumed = [.rightParen] → depth ≠ 0)
    (hdepth : (brackets next.pending).length + depth = (brackets c.pending).length + depth')
    (h : Frames progress c depth bs) : Frames further next depth' (bs.map (.note tokens)) := by
  induction bs generalizing depth depth' with
  | nil => trivial
  | cons bracket bs ih =>
    cases bracket with
    | paren => exact ih (fun _ => Nat.succ_ne_zero _) (by omega) h
    | call function ended current =>
      exact ⟨h.1.of_step hstep hprogress hinside hdepth,
        ih (fun _ => Nat.succ_ne_zero _) (by omega) h.2⟩

/-- When an argument of the innermost call ends, its stretch is what the output has gained. -/
theorem Frame.ends {output : Output} {ops : List Operator} {function other : String} {commas : Nat}
    {mark : Int} {pending : List Pending} {opened : Bool} {ended : List (List Token)}
    {current : List Token}
    (h : Frame Finishes ⟨output, waiting ops ++ .call other commas mark :: pending, opened⟩ 0
      function ended current)
    (hdepth : (output.extend (ops.map .operator)).depth - mark = 1) :
    other = function ∧ commas = ended.length ∧ current ≠ [] ∧
      EndsWith (output.extend (ops.map .operator)).items.reverse (ended ++ [current]) := by
  obtain ⟨base, outer, ⟨front, waits, fresh⟩, hc, hbrackets, hcurrent, hended⟩ := h
  obtain ⟨others, rfl⟩ := exists_waiting (List.eq_nil_of_length_eq_zero hbrackets)
  obtain ⟨rfl, hpending, -⟩ := Conversion.mk.inj hc
  rw [raise_waiting] at hpending
  obtain ⟨rfl, hcall, -⟩ := waiting_append_inj rfl rfl hpending
  obtain ⟨rfl, rfl, rfl⟩ := Pending.call.inj hcall
  have hstretch : IsStretch current (front.extend (ops.map .operator)).items.reverse := by
    refine ⟨hcurrent.trans (finish_operators _ _), ?_⟩
    have hdepth : (front.extend (ops.map .operator)).depth + base.depth - base.depth = 1 := by
      rw [← Output.depth_above_extend]
      exact hdepth
    rw [Output.height_reverse, ← Output.depth_eq]
    omega
  refine ⟨rfl, rfl, hstretch.ne_nil, ?_⟩
  rw [← Output.above_extend, Output.items_above, List.reverse_append]
  exact hended.concat hstretch

/-- Tokens that lead somewhere can be taken to end there. -/
theorem Frames.finishes {depth : Nat} {bs : List Bracket} (h : Frames (Leads rest) c depth bs) :
    Frames Finishes ⟨c.output, c.pending, false⟩ depth bs := by
  induction bs generalizing depth with
  | nil => trivial
  | cons bracket bs ih =>
    cases bracket with
    | paren => exact ih h
    | call function ended current =>
      obtain ⟨⟨base, outer, inner, rfl, hbrackets, hcurrent, hended⟩, houtside⟩ := h
      exact ⟨⟨base, outer, ⟨inner.output, inner.pending, false⟩, rfl, hbrackets, hcurrent.finishes,
        hended⟩, ih houtside⟩

end

theorem written_call {function : String} {ended : List (List Token)} {current : List Token}
    (h : current ≠ []) :
    (Bracket.call function ended current).written = [⟨function, ended ++ [current]⟩] := by
  cases current with
  | nil => exact absurd rfl h
  | cons token current => cases ended <;> rfl

/-! ## The end of the tokens -/

theorem map_note_nil (bs : List Bracket) : bs.map (.note []) = bs := by
  have hnote : ∀ bracket : Bracket, bracket.note [] = bracket := by
    intro bracket
    cases bracket <;> simp [Bracket.note]
  rw [funext hnote, List.map_id']

/-- Closing the innermost bracket at the end is a step inside the calls around it. -/
theorem Frames.close {c next : Conversion} {bs : List Bracket} (hopened : c.opened = false)
    (hstep : Step c [.rightParen] [] next)
    (hdepth : (brackets next.pending).length + 1 = (brackets c.pending).length)
    (h : Frames Finishes c 1 bs) : Frames Finishes next 0 bs := by
  rw [← map_note_nil bs]
  refine Frames.of_step hstep ?_ (fun _ => Nat.one_ne_zero) hdepth h
  intro current inner after hinner hcurrent hafter
  rw [List.append_nil]
  exact hcurrent.step (hinner.trans hopened) hafter

/-- Closing what is still open records the calls that are open. -/
theorem completes_finish {bs : List Bracket} {output : Output} {pending : List Pending}
    {items : List Postfix} (hnames : brackets pending = bs.map Bracket.name?)
    (hframes : Frames Finishes ⟨output, pending, false⟩ 0 bs)
    (h : finish output pending = .ok items) : Completes output (bs.flatMap Bracket.written) items := by
  induction bs generalizing output pending with
  | nil =>
    obtain ⟨ops, rfl⟩ := exists_waiting hnames
    rw [finish_operators] at h
    obtain rfl := Except.ok.inj h
    exact Completes.operators ⟨[], (List.append_nil _).symm, .nil⟩
  | cons bracket bs ih =>
    obtain ⟨ops, top, below, rfl, htop⟩ := exists_bracket (by rw [hnames]; simp)
    have hdepth := @brackets_length_closed ops top below htop
    rw [brackets_waiting_append] at hnames
    rw [finish_waiting] at h
    cases bracket with
    | paren =>
      cases top with
      | operator op => cases htop
      | call other commas mark => cases (List.cons.inj hnames).1
      | paren =>
        have houtside := Frames.close rfl .closeParen hdepth hframes
        exact (ih (List.cons.inj hnames).2 houtside h).operators
    | call function ended current =>
      cases top with
      | operator op => cases htop
      | paren => cases (List.cons.inj hnames).1
      | call other commas mark =>
        -- the last argument of an open call ends here, as at a closing parenthesis
        obtain ⟨_, hcheck, h⟩ := bind_eq_ok_iff.mp h
        have hvalue := Output.checkArgument_eq_ok_iff.mp hcheck
        obtain ⟨rfl, rfl, hne, hends⟩ := hframes.1.ends hvalue
        have houtside := Frames.close rfl (.closeCall hvalue) hdepth hframes.2
        rw [List.flatMap_cons, written_call hne]
        refine (Completes.call ⟨rfl, ?_, hends⟩ (ih (List.cons.inj hnames).2 houtside h)).operators
        rw [List.length_append, List.length_singleton]

/-! ## Runs -/

/-- The conversion has the brackets open that the tokens have left open, and a call that has just
been opened has no arguments yet. -/
structure Tracks (c : Conversion) (rest : List Token) (bs : List Bracket) : Prop where
  names : brackets c.pending = bs.map Bracket.name?
  fresh : c.opened = true → ∀ function ended current outside,
    bs = .call function ended current :: outside → ended = [] ∧ current = []
  frames : Frames (Leads rest) c 0 bs

theorem map_name?_note (tokens : List Token) (bs : List Bracket) :
    (bs.map (.note tokens)).map Bracket.name? = bs.map Bracket.name? := by
  rw [List.map_map]
  refine List.map_congr_left fun bracket _ => ?_
  cases bracket <;> rfl

section

variable {c next : Conversion} {consumed rest : List Token} {bs : List Bracket}

/-- The calls outside of a step, noted with its tokens. -/
theorem Frames.leads {depth depth' : Nat} (hstep : Step c consumed rest next)
    (hinside : consumed = [.comma] ∨ consumed = [.rightParen] → depth ≠ 0)
    (hdepth : (brackets next.pending).length + depth = (brackets c.pending).length + depth')
    (h : Frames (Leads (consumed ++ rest)) c depth bs) :
    Frames (Leads rest) next depth' (bs.map (.note consumed)) :=
  Frames.of_step hstep (fun _ hcurrent hafter => hcurrent.step hafter) hinside hdepth h

/-- A step that leaves all brackets as they are. -/
theorem Tracks.inside (hstep : Step c consumed rest next)
    (hinside : ¬ (consumed = [.comma] ∨ consumed = [.rightParen])) (hopened : next.opened = false)
    (hbrackets : brackets next.pending = brackets c.pending) (h : Tracks c (consumed ++ rest) bs) :
    Tracks next rest (bs.map (.note consumed)) where
  names := by rw [hbrackets, h.names, map_name?_note]
  fresh := fun htrue => by
    rw [hopened] at htrue
    cases htrue
  frames := h.frames.leads hstep (fun h => absurd h hinside) (by rw [hbrackets])

theorem Tracks.openParen (h : Tracks c (.leftParen :: rest) bs) :
    Tracks c.openParen rest (.paren :: bs.map (.note [.leftParen])) where
  names := by
    rw [List.map_cons, map_name?_note, ← h.names]
    rfl
  fresh := fun _ function ended current outside heq => by cases (List.cons.inj heq).1
  frames := @Frames.leads _ _ [.leftParen] rest _ 0 1 .openParen (by simp) rfl h.frames

theorem Tracks.openCall {function : String} (hname : Builtin.isName function = true)
    (h : Tracks c (.identifier function :: .leftParen :: rest) bs) :
    Tracks (c.openCall function) rest
      (.call function [] [] :: bs.map (.note [.identifier function, .leftParen])) where
  names := by
    rw [List.map_cons, map_name?_note, ← h.names]
    rfl
  fresh := fun _ other ended current outside heq => by
    obtain ⟨-, rfl, rfl⟩ := Bracket.call.inj (List.cons.inj heq).1
    exact ⟨rfl, rfl⟩
  frames :=
    ⟨⟨c.output, c.pending, ⟨.empty, [], true⟩, rfl, rfl, leads_nil rest true, endsWith_nil _⟩,
      @Frames.leads _ _ [.identifier function, .leftParen] rest _ 0 1 (.openCall hname) (by simp)
        rfl h.frames⟩

/-- A closing bracket closes the innermost bracket. -/
theorem Tracks.close {bracket : Bracket} (hstep : Step c [.rightParen] rest next)
    (hopened : next.opened = false)
    (hbrackets : brackets c.pending = bracket.name? :: brackets next.pending)
    (h : Tracks c (.rightParen :: rest) (bracket :: bs)) :
    Tracks next rest (bs.map (.note [.rightParen])) where
  names := by
    have hnames := h.names
    rw [hbrackets, List.map_cons] at hnames
    rw [(List.cons.inj hnames).2, map_name?_note]
  fresh := fun htrue => by
    rw [hopened] at htrue
    cases htrue
  frames := by
    have houtside : Frames (Leads (.rightParen :: rest)) c 1 bs := by
      cases bracket with
      | paren => exact h.frames
      | call function ended current => exact h.frames.2
    refine @Frames.leads _ _ [.rightParen] rest _ 1 0 hstep (by simp) ?_ houtside
    rw [hbrackets, List.length_cons]

/-- A comma ends an argument of the innermost call. -/
theorem Tracks.comma {output : Output} {ops : List Operator} {function other : String}
    {commas : Nat} {mark : Int} {pending : List Pending} {opened : Bool}
    {ended : List (List Token)} {current : List Token}
    (hdepth : (output.extend (ops.map .operator)).depth - mark = 1)
    (h : Tracks ⟨output, waiting ops ++ .call other commas mark :: pending, opened⟩
      (.comma :: rest) (.call function ended current :: bs)) :
    Tracks ⟨output.extend (ops.map .operator),
        .call other (commas + 1) (output.extend (ops.map .operator)).depth :: pending, false⟩ rest
      (.call function (ended ++ [current]) [] :: bs.map (.note [.comma])) := by
  have hnames := h.names
  rw [brackets_waiting_append] at hnames
  obtain ⟨rfl, rfl, -, hends⟩ := h.frames.finishes.1.ends hdepth
  refine ⟨?_, (by simp), ⟨_, pending, ⟨.empty, [], false⟩, ?_, rfl, leads_nil rest false, hends⟩, ?_⟩
  · rw [List.map_cons, map_name?_note]
    exact hnames
  · rw [List.length_append, List.length_singleton]
    rfl
  · refine @Frames.leads _ _ [.comma] rest _ 1 1 (.comma hdepth) (by simp) ?_ h.frames.2
    rw [brackets_waiting_append]
    rfl

theorem exists_paren_of_names {names : List (Option String)}
    (h : none :: names = bs.map Bracket.name?) : ∃ outside, bs = .paren :: outside := by
  match bs with
  | [] => cases h
  | .paren :: outside => exact ⟨outside, rfl⟩
  | .call .. :: _ => cases (List.cons.inj h).1

theorem exists_call_of_names {function : String} {names : List (Option String)}
    (h : some function :: names = bs.map Bracket.name?) :
    ∃ ended current outside, bs = .call function ended current :: outside := by
  match bs with
  | [] => cases h
  | .paren :: _ => cases (List.cons.inj h).1
  | .call other ended current :: outside =>
    obtain rfl := Option.some.inj (List.cons.inj h).1
    exact ⟨ended, current, outside, rfl⟩

theorem Completes.leaf {output : Output} {item : Postfix} {items : List Postfix}
    {calls : List (Call (List Token))} (hitem : callPoints output.items.reverse [item] = [])
    (h : Completes (output.push item) calls items) : Completes output calls items :=
  @Completes.extend output [item] items [] calls (by rw [hitem]; exact .nil) h

theorem writtenFrom_var {name : String} (h : rest.head? ≠ some .leftParen) :
    writtenFrom bs (.identifier name :: rest) =
      writtenFrom (bs.map (.note [.identifier name])) rest := by
  cases rest with
  | nil => rfl
  | cons token rest =>
    cases token with
    | leftParen => exact absurd rfl h
    | _ => rfl

end

/-- A run records the calls that its tokens write. -/
theorem completes_run {c after : Conversion} {tokens : List Token} {items : List Postfix}
    (h : run c tokens = .ok after) (hfinish : finish after.output after.pending = .ok items) :
    ∀ bs, Tracks c tokens bs → Completes c.output (writtenFrom bs tokens) items := by
  refine @run_induction after
    (fun c tokens => ∀ bs, Tracks c tokens bs → Completes c.output (writtenFrom bs tokens) items)
    ?_ ?_ c tokens h
  · intro bs htracks
    exact completes_finish htracks.names htracks.frames.finishes hfinish
  · intro c consumed rest next hstep ih bs htracks
    -- a comma and a closing bracket change the innermost bracket, other tokens are only noted
    cases hstep with
    | number value =>
      exact (ih _ (htracks.inside (.number value) (by simp) rfl rfl)).leaf rfl
    | var name hrest =>
      have hnext := ih _ (htracks.inside (.var name hrest) (by simp) rfl rfl)
      rw [List.singleton_append, writtenFrom_var hrest]
      exact hnext.leaf rfl
    | openParen => exact ih _ htracks.openParen
    | openCall hname => exact ih _ (htracks.openCall hname)
    | operate op =>
      obtain ⟨ops, pending, hpending, heq⟩ := operate_eq c op
      have hbrackets : brackets (c.operate op).pending = brackets c.pending := by
        rw [heq, hpending, brackets_waiting_append]
        rfl
      have hopened : (c.operate op).opened = false := by rw [heq]
      have hnext := ih _ (htracks.inside (.operate op) (by simp) hopened hbrackets)
      rw [heq] at hnext
      exact hnext.operators
    | @comma output ops function commas mark pending opened _ hdepth =>
      have hnames := htracks.names
      rw [brackets_waiting_append] at hnames
      obtain ⟨ended, current, outside, rfl⟩ := exists_call_of_names hnames
      exact (ih _ (htracks.comma hdepth)).operators
    | @closeStray output ops opened _ =>
      have hnames := htracks.names
      rw [brackets_waiting] at hnames
      obtain rfl := List.map_eq_nil_iff.mp hnames.symm
      exact (ih [] ⟨rfl, by simp, trivial⟩).operators
    | @closeParen output ops pending opened _ =>
      have hnames := htracks.names
      rw [brackets_waiting_append] at hnames
      obtain ⟨outside, rfl⟩ := exists_paren_of_names hnames
      exact (ih _ (htracks.close .closeParen rfl (brackets_waiting_append _ _))).operators
    | @closeCall output ops function commas mark pending _ hdepth =>
      have hnames := htracks.names
      rw [brackets_waiting_append] at hnames
      obtain ⟨ended, current, outside, rfl⟩ := exists_call_of_names hnames
      obtain ⟨-, rfl, hne, hends⟩ := htracks.frames.finishes.1.ends hdepth
      have hnext := ih _ (htracks.close (.closeCall hdepth) rfl (brackets_waiting_append _ _))
      have hwritten : writtenFrom (.call function ended current :: outside) ([.rightParen] ++ rest) =
          ⟨function, ended ++ [current]⟩ :: writtenFrom (outside.map (.note [.rightParen])) rest := by
        show (Bracket.call function ended current).written ++ _ = _
        rw [written_call hne]
        rfl
      rw [hwritten]
      refine (Completes.call ⟨rfl, ?_, hends⟩ hnext).operators
      rw [List.length_append, List.length_singleton]
    | @closeEmpty output ops function commas mark pending _ =>
      have hnames := htracks.names
      rw [brackets_waiting_append] at hnames
      obtain ⟨ended, current, outside, rfl⟩ := exists_call_of_names hnames
      obtain ⟨rfl, rfl⟩ := htracks.fresh rfl function ended current outside rfl
      have hnext := ih _ (htracks.close .closeEmpty rfl (brackets_waiting_append _ _))
      exact (Completes.call ⟨rfl, rfl, endsWith_nil _⟩ hnext).operators

/-- **Each call of the postfix order stands after the stretches of a written call.** -/
theorem records_ofTokens {tokens : List Token} {items : List Postfix}
    (h : ofTokens tokens = .ok items) :
    List.Forall₂ Records (callPoints [] items) (writtenCalls tokens) := by
  obtain ⟨c, hrun, hfinish⟩ := bind_eq_ok_iff.mp h
  obtain ⟨more, rfl, hmore⟩ := completes_run hrun hfinish [] ⟨rfl, by simp, trivial⟩
  exact hmore

end TradePlan
