import TradePlan.Proofs.SettingsTexts
import TradePlan.Proofs.Tiers

/-!
# Valid settings

A settings file that is valid is taken as it stands: every value is what its text denotes, and only
keys without a value have their defaults.

    validate ini = .ok () ↔ ∃ settings, ofIni ini = .ok settings ∧ settings.Honours ini
                                                                        (validate_eq_ok_iff_honours)

For each key, the check passes if the text of the key denotes a value, and this is the value that the
settings take, although they read the text by themselves and take the default if they cannot read it.
-/

namespace TradePlan

/-- The value that a key gives: the default if the key has no value, else what its text writes. -/
def Ini.Gives {α : Type} (ini : Ini) (group key : String) (default : α)
    (writes : String → α → Prop) (value : α) : Prop :=
  match ini.get? group key with
  | none => value = default
  | some text => writes text value

namespace Settings

/-! ## What texts denote -/

/-- The alias flag, in any letter case. -/
def WritesPolicy (text : String) : AliasPolicy → Prop
  | .collapse => Text.foldCase text ∈ ["true", "yes", "1"]
  | .distinct => Text.foldCase text ∈ ["false", "no", "0"]

def WritesCap (text : String) (x : Float) : Prop :=
  Decimal.read text = .ok x ∧ 0 < x ∧ x ≤ 1

def WritesTiers (text : String) (tiers : List Float) : Prop :=
  readTiers text = .ok tiers ∧ AreTiers tiers

def WritesStreak (text : String) (n : Nat) : Prop :=
  Text.WritesCount text n ∧ 1 ≤ n ∧ n ≤ maxStreak

/-- A path as it stands. -/
def WritesPath (text path : String) : Prop :=
  path = text ∧ Text.isBlankText text = false

/-- Settings with the values that the keys give. -/
structure Honours (settings : Settings) (ini : Ini) : Prop where
  aliases : ini.Gives "formula" "collapse_entry_aliases" .collapse WritesPolicy
    settings.planner.aliases
  capFraction : ini.Gives "sizing" "volume_cap_fraction" 0.01 WritesCap settings.planner.capFraction
  tiers : ini.Gives "risk" "tiers" [0.25, 0.5, 1] WritesTiers settings.planner.ladder.tiers
  streak : ini.Gives "risk" "streak_length" 2 WritesStreak settings.planner.ladder.streak
  rulesPath : ini.Gives "store" "rules_path" "trade_rules.json" WritesPath settings.rulesPath
  historyPath : ini.Gives "store" "history_path" "trade_history.csv" WritesPath
    settings.historyPath

variable {ini : Ini}

/-! ## Aliases -/

def policyOf (collapse : Bool) : AliasPolicy := if collapse then .collapse else .distinct

theorem truthOf?_eq_some_iff {text : String} {flag : Bool} :
    Ini.truthOf? text = some flag ↔ WritesPolicy text (policyOf flag) := by
  unfold Ini.truthOf?
  have hcollapse : WritesPolicy text (policyOf true) ↔
      Text.foldCase text ∈ ["true", "yes", "1"] := Iff.rfl
  have hdistinct : WritesPolicy text (policyOf false) ↔
      Text.foldCase text ∈ ["false", "no", "0"] := Iff.rfl
  cases flag
  · rw [hdistinct]
    grind
  · rw [hcollapse]
    grind

theorem gives_policy_iff {policy : AliasPolicy} :
    ini.Gives "formula" "collapse_entry_aliases" .collapse WritesPolicy policy ↔
      validateAliases ini = .ok () ∧
        policyOf (ini.truth "formula" "collapse_entry_aliases" true) = policy := by
  unfold Ini.Gives validateAliases Ini.truth
  cases ini.get? "formula" "collapse_entry_aliases" with
  | none => simp [policyOf, eq_comm]
  | some text =>
    simp only [Option.bind_some]
    constructor
    · intro h
      obtain ⟨flag, rfl⟩ : ∃ flag, policyOf flag = policy := by
        cases policy with
        | collapse => exact ⟨true, rfl⟩
        | distinct => exact ⟨false, rfl⟩
      simp [truthOf?_eq_some_iff.mpr h]
    · rintro ⟨hcheck, rfl⟩
      cases hflag : Ini.truthOf? text with
      | none => simp [hflag] at hcheck
      | some flag => exact truthOf?_eq_some_iff.mp hflag

/-! ## Volume cap -/

theorem gives_cap_iff (h : ini.IsTrimmed) {x : Float} :
    ini.Gives "sizing" "volume_cap_fraction" 0.01 WritesCap x ↔
      validateCap ini = .ok () ∧
        ini.number "sizing" "volume_cap_fraction" defaultCapFraction = x := by
  unfold Ini.Gives validateCap Ini.number
  cases hget : ini.get? "sizing" "volume_cap_fraction" with
  | none => simp [defaultCapFraction, eq_comm]
  | some text =>
    simp only [Option.bind_some, h.trim_get? hget, WritesCap]
    cases Decimal.read text with
    | error fault => simp
    | ok y =>
      simp only [Except.ok.injEq, Except.toOption, Option.getD_some]
      constructor
      · rintro ⟨rfl, hbounds⟩
        exact ⟨if_pos hbounds, rfl⟩
      · rintro ⟨hcheck, rfl⟩
        split at hcheck
        · next hbounds => exact ⟨rfl, hbounds⟩
        · cases hcheck

/-! ## Ladder -/

theorem gives_tiers_iff {tiers : List Float} :
    ini.Gives "risk" "tiers" [0.25, 0.5, 1] WritesTiers tiers ↔
      configuredTiers ini = .ok tiers := by
  unfold Ini.Gives configuredTiers
  cases ini.get? "risk" "tiers" with
  | none => simp [RiskLadder.standard, eq_comm]
  | some text =>
    simp only [WritesTiers]
    cases hread : readTiers text with
    | error fault => simp
    | ok others =>
      simp only [Except.ok.injEq, and_iff_left_iff_imp]
      rintro rfl
      exact (readTiers_eq_ok_iff.mp hread).2

theorem ne_nil_of_gives_tiers {tiers : List Float}
    (h : ini.Gives "risk" "tiers" [0.25, 0.5, 1] WritesTiers tiers) : tiers ≠ [] := by
  unfold Ini.Gives at h
  split at h
  · rw [h]
    exact List.cons_ne_nil _ _
  · exact h.2.ne_nil

theorem one_le_of_gives_streak {n : Nat}
    (h : ini.Gives "risk" "streak_length" 2 WritesStreak n) : 1 ≤ n ∧ n ≤ maxStreak := by
  unfold Ini.Gives at h
  split at h
  · subst h
    decide
  · exact h.2

/-- Both readings of the streak length give the same number. -/
theorem readInteger?_of_writesStreak {text : String} {n : Nat} (h : WritesStreak text n) :
    Text.readInteger? text = some (n : Int) := by
  obtain ⟨hn, -, hmax⟩ := h
  refine Text.readInteger?_of_writesCount hn ?_
  unfold maxStreak at hmax
  omega

theorem integer_of_gives_streak {n : Nat}
    (h : ini.Gives "risk" "streak_length" 2 WritesStreak n) :
    ini.integer "risk" "streak_length" RiskLadder.standard.streak = n := by
  unfold Ini.Gives at h
  unfold Ini.integer
  split at h
  · next hget =>
    rw [hget, h]
    rfl
  · next text hget =>
    rw [hget, Option.bind_some, readInteger?_of_writesStreak h]
    rfl

theorem exists_gives_streak_iff (h : ini.IsTrimmed) :
    (∃ n, ini.Gives "risk" "streak_length" 2 WritesStreak n) ↔ validateStreak ini = .ok () := by
  unfold Ini.Gives validateStreak
  cases hget : ini.get? "risk" "streak_length" with
  | none => simp
  | some text =>
    simp only [h.trim_get? hget]
    constructor
    · rintro ⟨n, hn, hpos, hmax⟩
      obtain ⟨m, rfl⟩ := Nat.exists_eq_add_of_le' hpos
      rw [Text.readCount?_eq_some_iff.mpr ⟨hn, hmax⟩]
    · intro hcheck
      split at hcheck
      · next m hcount =>
        obtain ⟨hm, hmax⟩ := Text.readCount?_eq_some_iff.mp hcount
        exact ⟨m + 1, hm, by omega, hmax⟩
      · cases hcheck

theorem ofTiers?_self (ladder : RiskLadder) :
    RiskLadder.ofTiers? ladder.tiers ladder.streak = some ladder :=
  dif_pos ⟨ladder.tiers_ne_nil, ladder.streak_pos⟩

theorem ladder_of_gives {ladder : RiskLadder} (htiers : configuredTiers ini = .ok ladder.tiers)
    (hstreak : ini.Gives "risk" "streak_length" 2 WritesStreak ladder.streak) :
    Settings.ladder ini = .ok ladder := by
  have hrange : 0 ≤ (ladder.streak : Int) ∧ (ladder.streak : Int) ≤ maxStreak := by
    have := one_le_of_gives_streak hstreak
    omega
  unfold Settings.ladder
  rw [htiers, ok_bind, integer_of_gives_streak hstreak]
  simp only [if_pos hrange, Int.toNat_natCast, ofTiers?_self]
  rfl

/-! ## Paths -/

theorem gives_path_iff {key default path : String} :
    ini.Gives "store" key default WritesPath path ↔
      validatePath ini key = .ok () ∧ (ini.get? "store" key).getD default = path := by
  unfold Ini.Gives validatePath
  cases ini.get? "store" key with
  | none => simp [eq_comm]
  | some text =>
    simp only [WritesPath]
    cases Text.isBlankText text <;> simp [eq_comm]

/-! ## All keys -/

theorem validate_eq_ok_iff :
    validate ini = .ok () ↔
      validateAliases ini = .ok () ∧ validateCap ini = .ok () ∧
      (∃ tiers, configuredTiers ini = .ok tiers) ∧ validateStreak ini = .ok () ∧
      validatePath ini "rules_path" = .ok () ∧ validatePath ini "history_path" = .ok () := by
  unfold validate
  simp only [bind_eq_ok_iff, Unique.exists_iff, exists_and_right]

/-- Settings that honour a file are what is taken from it. -/
theorem ofIni_of_honours (h : ini.IsTrimmed) {settings : Settings} (hs : settings.Honours ini) :
    ofIni ini = .ok settings := by
  obtain ⟨⟨aliases, ladder, capFraction⟩, rulesPath, historyPath⟩ := settings
  obtain ⟨-, rfl⟩ := gives_policy_iff.mp hs.aliases
  obtain ⟨-, rfl⟩ := (gives_cap_iff h).mp hs.capFraction
  obtain ⟨-, rfl⟩ := gives_path_iff.mp hs.rulesPath
  obtain ⟨-, rfl⟩ := gives_path_iff.mp hs.historyPath
  unfold ofIni
  rw [ladder_of_gives (gives_tiers_iff.mp hs.tiers) hs.streak]
  rfl

theorem validate_of_honours (h : ini.IsTrimmed) {settings : Settings} (hs : settings.Honours ini) :
    validate ini = .ok () := by
  rw [validate_eq_ok_iff]
  exact ⟨(gives_policy_iff.mp hs.aliases).1, ((gives_cap_iff h).mp hs.capFraction).1,
    ⟨_, gives_tiers_iff.mp hs.tiers⟩, (exists_gives_streak_iff h).mp ⟨_, hs.streak⟩,
    (gives_path_iff.mp hs.rulesPath).1, (gives_path_iff.mp hs.historyPath).1⟩

theorem exists_honours_of_validate (h : ini.IsTrimmed) (hvalid : validate ini = .ok ()) :
    ∃ settings : Settings, settings.Honours ini := by
  obtain ⟨haliases, hcap, ⟨tiers, htiers⟩, hstreak, hrules, hhistory⟩ :=
    validate_eq_ok_iff.mp hvalid
  obtain ⟨streak, hstreak⟩ := (exists_gives_streak_iff h).mpr hstreak
  have htiers := gives_tiers_iff.mpr htiers
  let ladder : RiskLadder :=
    ⟨tiers, streak, ne_nil_of_gives_tiers htiers, (one_le_of_gives_streak hstreak).1⟩
  exact ⟨⟨⟨_, ladder, _⟩, _, _⟩, gives_policy_iff.mpr ⟨haliases, rfl⟩,
    (gives_cap_iff h).mpr ⟨hcap, rfl⟩, htiers, hstreak,
    gives_path_iff.mpr ⟨hrules, rfl⟩, gives_path_iff.mpr ⟨hhistory, rfl⟩⟩

/-! ## Top theorem -/

/-- **A valid file is honoured.**  The check passes exactly if settings can be taken from the file that
hold for each key what its text denotes, or the default if it has no value. -/
theorem validate_eq_ok_iff_honours {text : String} (hread : Ini.read text = .ok ini) :
    validate ini = .ok () ↔
      ∃ settings, ofIni ini = .ok settings ∧ settings.Honours ini := by
  have h := Ini.isTrimmed_of_read hread
  constructor
  · intro hvalid
    obtain ⟨settings, hs⟩ := exists_honours_of_validate h hvalid
    exact ⟨settings, ofIni_of_honours h hs, hs⟩
  · rintro ⟨settings, -, hs⟩
    exact validate_of_honours h hs

/-- A file that sets three of the keys. -/
theorem validate_eq_ok_iff_honours_ladder :
    let text := "[Formula]\ncollapse_entry_aliases = NO\n"
      ++ "[risk]\ntiers = 0.5, 1 ; two\nstreak_length: +3\n"
    ∃ ini settings, Ini.read text = .ok ini ∧ validate ini = .ok () ∧
      ofIni ini = .ok settings ∧ settings.Honours ini ∧
      settings.planner.aliases = .distinct ∧ settings.planner.capFraction = 0.01 ∧
      settings.planner.ladder.tiers = [0.5, 1] ∧ settings.planner.ladder.streak = 3 := by
  intro text
  let ini : Ini := ⟨[⟨"formula", "collapse_entry_aliases", some "NO"⟩,
    ⟨"risk", "tiers", some "0.5, 1"⟩, ⟨"risk", "streak_length", some "+3"⟩]⟩
  have hread : Ini.read text = .ok ini := by decide +kernel
  have hvalid : validate ini = .ok () := by decide +kernel
  have h := Ini.isTrimmed_of_read hread
  obtain ⟨settings, hsettings, hs⟩ := (validate_eq_ok_iff_honours hread).mp hvalid
  have haliases := (gives_policy_iff.mp hs.aliases).2
  have hcap := ((gives_cap_iff h).mp hs.capFraction).2
  have htiers := gives_tiers_iff.mp hs.tiers
  have hstreak := integer_of_gives_streak hs.streak
  refine ⟨ini, settings, hread, hvalid, hsettings, hs, ?_, ?_, ?_, ?_⟩
  · rw [← haliases]
    decide +kernel
  · rw [← hcap]
    decide +kernel
  · refine Except.ok.inj (htiers.symm.trans ?_)
    decide +kernel
  · refine Int.natCast_inj.mp (hstreak.symm.trans ?_)
    decide +kernel

end Settings

end TradePlan
