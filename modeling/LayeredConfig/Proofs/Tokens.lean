import LayeredConfig.Arguments
import LayeredConfig.Proofs.Ordered
import Mathlib.Data.List.Infix

/-!
# What the tokens of a command line become

Parsing goes through the tokens with the latest switch as its state, and adds to a map as it goes. What comes out is
said here of the tokens themselves (`collected`): the names of the switches, each where it first appears, and under a
name the tokens that have a switch of this name as the latest one before them. One token moves on the switch or gives
it a value (`parseFrom_cons`), a run of tokens does so one after the other (`Collects`), and the run as a whole loses,
repeats and reorders nothing (`parse_eq_collected`).
-/

namespace LayeredConfig.Arguments

/-! ## Tokens and switches -/

/-- Whether a token begins a switch. -/
def isMarked (token : String) : Bool := token.toList.head? == some '-' || token.toList.head? == some '/'

/-- Whether a token is a mark without a name. -/
def isNameless (token : String) : Bool := token == "-" || token == "/"

/-- A token without the two dashes in front of it, or else without its first character. -/
def unmarked (token : String) : String :=
  String.ofList (if ['-', '-'].isPrefixOf token.toList then token.toList.drop 2 else token.toList.drop 1)

/-- The name that a token stands for as a switch. -/
def switchName? (aliases : Aliases) (token : String) : Option String :=
  if isMarked token then some (canonical aliases (unmarked token)) else none

/-- The names of the switches among some tokens. -/
def switchNames (aliases : Aliases) (tokens : List String) : List String := tokens.filterMap (switchName? aliases)

/-- The name of the latest switch among some tokens, or the one before them. -/
def latest (aliases : Aliases) (current : String) (tokens : List String) : String :=
  (switchNames aliases tokens).getLast?.getD current

/-- The tokens that are no switches and have a switch of a given name as the latest one before them. -/
def valuesOf (aliases : Aliases) (current : String) (tokens : List String) (name : String) : List String :=
  ((tokens.inits.zip tokens).filter fun (before, token) =>
    !isMarked token && latest aliases current before == name).map Prod.snd

/-- The names under which something is collected, each where it first appears: the empty name if values stand before
the first switch, and the names of the switches. -/
def names (aliases : Aliases) (tokens : List String) : List String :=
  ((if tokens.takeWhile (!isMarked ·) = [] then [] else [""]) ++ switchNames aliases tokens).eraseDups

/-- The values of every name. -/
def collected (aliases : Aliases) (tokens : List String) : Arguments :=
  (names aliases tokens).map fun name => (name, valuesOf aliases "" tokens name)

/-- The tokens of some arguments: every name behind two dashes, with its values after it. -/
def spelled (arguments : Arguments) : List String :=
  arguments.flatMap fun (name, values) => ("--" ++ name) :: values

section

variable {aliases : Aliases} {current name token : String} {arguments result : Arguments}
  {tokens values rest : List String}

theorem isNameless_iff : isNameless token = true ↔ token.toList = ['-'] ∨ token.toList = ['/'] := by
  simp [isNameless, ← String.toList_inj]

theorem isMarked_iff : isMarked token = true ↔ ∃ name, token.toList = '-' :: name ∨ token.toList = '/' :: name := by
  simp [isMarked, List.head?_eq_some_iff, exists_or]

theorem ofString_eq (token : String) :
    Token.ofString token =
      if isNameless token then .nameless token
      else if isMarked token then .switch (unmarked token) else .value token := by
  unfold Token.ofString
  split
  · next h => rw [if_pos (isNameless_iff.mpr (Or.inl h))]
  · next h => rw [if_pos (isNameless_iff.mpr (Or.inr h))]
  · next name h =>
    have hmarked : isMarked token = true := isMarked_iff.mpr ⟨_, Or.inl h⟩
    simp [isNameless_iff, hmarked, unmarked, h]
  · next name hname hsingle h =>
    have hmarked : isMarked token = true := isMarked_iff.mpr ⟨_, Or.inl h⟩
    have hne : name ≠ [] := hname
    -- What follows a single dash does not begin with another.
    have hdash : ['-', '-'].isPrefixOf ('-' :: name) = false := by
      cases name with
      | nil => contradiction
      | cons c name =>
        have hc : '-' ≠ c := fun hc => hsingle name (by rw [hc])
        simp [List.isPrefixOf, hc]
    simp [isNameless_iff, hmarked, unmarked, h, hne, hdash]
  · next name hname h =>
    have hmarked : isMarked token = true := isMarked_iff.mpr ⟨_, Or.inr h⟩
    have hne : name ≠ [] := hname
    simp [isNameless_iff, hmarked, unmarked, h, hne]
  · next hdash hslash _ hswitch hslashed =>
    have hnamed : ¬ isNameless token = true := fun h => (isNameless_iff.mp h).elim hdash hslash
    have hvalue : ¬ isMarked token = true := by
      rw [isMarked_iff]
      rintro ⟨name, h | h⟩
      · exact hswitch name h
      · exact hslashed name h
    rw [if_neg hnamed, if_neg hvalue]

theorem isNameless_of_not_isMarked (h : isMarked token = false) : isNameless token = false := by
  rw [← Bool.not_eq_true] at h ⊢
  intro hlone
  exact h (isMarked_iff.mpr ⟨[], isNameless_iff.mp hlone⟩)

/-! ## One token -/

/-- The latest switch once a token has been read. -/
def advance (aliases : Aliases) (current token : String) : String := (switchName? aliases token).getD current

/-- What a token gives the latest switch. -/
def given (token : String) : List String := if isMarked token then [] else [token]

/-- A token makes its switch the latest one, or else is a value of the latest one. -/
theorem parseFrom_cons (hnamed : isNameless token = false) :
    parseFrom aliases current arguments (token :: rest) =
      parseFrom aliases (advance aliases current token)
        (addValues (advance aliases current token) (given token) arguments) rest := by
  rw [parseFrom, ofString_eq, hnamed]
  cases hmarked : isMarked token <;> simp [advance, switchName?, given, hmarked]

theorem advance_of_not_isMarked (h : isMarked token = false) : advance aliases current token = current := by
  simp [advance, switchName?, h]

@[simp] theorem latest_nil : latest aliases current [] = current := rfl

theorem latest_cons :
    latest aliases current (token :: tokens) = latest aliases (advance aliases current token) tokens := by
  rw [latest, latest, advance, switchNames, switchNames, List.filterMap_cons]
  cases switchName? aliases token with
  | none => rfl
  | some name => simp [List.getLast?_cons]

theorem valuesOf_cons :
    valuesOf aliases current (token :: tokens) name =
      (if advance aliases current token = name then given token else []) ++
        valuesOf aliases (advance aliases current token) tokens name := by
  have hlater : (tokens.inits.map (token :: ·)).zip tokens =
      (tokens.inits.zip tokens).map fun (before, other) => (token :: before, other) := by
    rw [List.zip_map_left]
    rfl
  have hbelow : valuesOf aliases (advance aliases current token) tokens name =
      (((tokens.inits.zip tokens).map fun (before, other) => (token :: before, other)).filter
        fun (before, other) => !isMarked other && latest aliases current before == name).map Prod.snd := by
    rw [List.filter_map, List.map_map, valuesOf]
    simp only [Function.comp_def, latest_cons]
  rw [valuesOf, List.inits_cons, List.zip_cons_cons, List.filter_cons, hlater, hbelow]
  cases hmarked : isMarked token with
  | true => simp [given, hmarked]
  | false => by_cases hname : current = name <;> simp [given, hmarked, advance_of_not_isMarked hmarked, hname]

/-! ## A run of tokens -/

theorem lookup_addValues (key : String) (values : List String) (arguments : Arguments) (name : String) :
    ((addValues key values arguments).lookup name).getD [] =
      (arguments.lookup name).getD [] ++ if key = name then values else [] := by
  rw [addValues, Ordered.lookup_insert]
  by_cases h : key = name
  · simp [h]
  · simp [h, Ne.symm h]

theorem distinct_addValues (hd : Ordered.Distinct arguments) (key : String) (values : List String) :
    Ordered.Distinct (addValues key values arguments) := Ordered.distinct_insert hd

theorem distinct_parseFrom (hd : Ordered.Distinct arguments)
    (h : parseFrom aliases current arguments tokens = .ok result) : Ordered.Distinct result := by
  induction tokens generalizing current arguments with
  | nil => exact Except.ok.inj h ▸ hd
  | cons token rest ih =>
    rw [parseFrom] at h
    split at h
    · contradiction
    · exact ih (distinct_addValues hd _ []) h
    · exact ih (distinct_addValues hd current _) h

theorem distinct_parse (h : parse aliases tokens = .ok result) : Ordered.Distinct result := by
  have hnil : Ordered.Distinct ([] : Arguments) := List.nodup_nil
  exact distinct_parseFrom hnil h

theorem mem_keys_addValues (key : String) (values : List String) (arguments : Arguments) :
    key ∈ Ordered.keys (addValues key values arguments) := by
  rw [addValues, Ordered.keys_insert]
  split
  · assumption
  · simp

theorem switchNames_cons :
    switchNames aliases (token :: tokens) = (switchName? aliases token).toList ++ switchNames aliases tokens := by
  rw [switchNames, switchNames, List.filterMap_cons]
  cases switchName? aliases token <;> rfl

/-- What a run of tokens adds to some arguments: the names of its switches behind those that are there, and to each
name its values behind those it has. -/
structure Collects (aliases : Aliases) (current : String) (arguments : Arguments) (tokens : List String)
    (result : Arguments) : Prop where
  keys : Ordered.keys result = (Ordered.keys arguments ++ switchNames aliases tokens).eraseDups
  values : ∀ name, (result.lookup name).getD [] =
    (arguments.lookup name).getD [] ++ valuesOf aliases current tokens name

theorem exists_collects (hnamed : ∀ token ∈ tokens, isNameless token = false) (hd : Ordered.Distinct arguments)
    (hcurrent : current ∈ Ordered.keys arguments) :
    ∃ result, parseFrom aliases current arguments tokens = .ok result ∧
      Collects aliases current arguments tokens result := by
  induction tokens generalizing current arguments with
  | nil =>
    refine ⟨arguments, rfl, ?_, fun name => ?_⟩
    · rw [switchNames, List.filterMap_nil, List.append_nil, Ordered.eraseDups_of_nodup hd]
    · rw [valuesOf, List.zip_nil_right]
      simp
  | cons token rest ih =>
    rw [List.forall_mem_cons] at hnamed
    have hthere := mem_keys_addValues (advance aliases current token) (given token) arguments
    have hdistinct := distinct_addValues hd (advance aliases current token) (given token)
    obtain ⟨result, hresult, hcollects⟩ := ih hnamed.2 hdistinct hthere
    rw [parseFrom_cons hnamed.1]
    refine ⟨result, hresult, ?_, fun name => ?_⟩
    · rw [hcollects.keys, addValues, Ordered.keys_insert_append, switchNames_cons]
      cases hmarked : isMarked token with
      | true => simp [advance, switchName?, hmarked]
      | false =>
        -- The latest switch is in the map, so that a value adds no name.
        rw [advance_of_not_isMarked hmarked, Ordered.eraseDups_append_cons_of_mem hcurrent]
        simp [switchName?, hmarked]
    · rw [hcollects.values, lookup_addValues, valuesOf_cons, List.append_assoc]

/-- The first token decides whether the empty name comes first. -/
theorem names_cons :
    names aliases (token :: tokens) = (advance aliases "" token :: switchNames aliases tokens).eraseDups := by
  rw [names, switchNames_cons]
  cases hmarked : isMarked token <;> simp [advance, switchName?, hmarked]

theorem Collects.eq (h : Collects aliases current arguments tokens result) (hd : Ordered.Distinct result) :
    result = (Ordered.keys result).map fun name =>
      (name, (arguments.lookup name).getD [] ++ valuesOf aliases current tokens name) := by
  have hentry : ∀ entry ∈ result,
      (arguments.lookup entry.1).getD [] ++ valuesOf aliases current tokens entry.1 = entry.2 := by
    intro entry hentry
    rw [← h.values, Ordered.lookup_of_mem hd hentry, Option.getD_some]
  rw [Ordered.keys, List.map_map]
  conv_lhs => rw [← List.map_id result]
  exact List.map_congr_left fun entry hmem => Prod.ext rfl (hentry entry hmem).symm

/-- Tokens that all have names are collected. The first one makes a map that its switch is in, and from there on the
latest switch is always in the map. -/
theorem parse_of_named (hnamed : ∀ token ∈ tokens, isNameless token = false) :
    parse aliases tokens = .ok (collected aliases tokens) := by
  cases tokens with
  | nil => rfl
  | cons token rest =>
    rw [List.forall_mem_cons] at hnamed
    generalize hfirst : advance aliases "" token = first
    have hd : Ordered.Distinct [(first, given token)] := List.nodup_singleton _
    obtain ⟨result, hresult, hcollects⟩ : ∃ result, parseFrom aliases first [(first, given token)] rest = .ok result ∧
        Collects aliases first [(first, given token)] rest result :=
      exists_collects hnamed.2 hd (List.mem_singleton.mpr rfl)
    have hparse : parse aliases (token :: rest) = .ok result := by
      rw [← hresult, parse, parseFrom_cons hnamed.1, hfirst]
      rfl
    have hnames : names aliases (token :: rest) = Ordered.keys result := by
      rw [names_cons, hcollects.keys, hfirst]
      rfl
    have hvalues (name : String) : valuesOf aliases "" (token :: rest) name =
        ([(first, given token)].lookup name).getD [] ++ valuesOf aliases first rest name := by
      rw [valuesOf_cons, hfirst, Ordered.lookup_cons_eq]
      by_cases hname : first = name <;> simp [hname]
    simp only [hparse, collected, hnames, hvalues, ← hcollects.eq (distinct_parseFrom hd hresult)]

theorem parseFrom_of_nameless (h : tokens.find? isNameless = some token) :
    parseFrom aliases current arguments tokens = .error (.argumentSyntax token) := by
  induction tokens generalizing current arguments with
  | nil => contradiction
  | cons first rest ih =>
    rw [List.find?_cons] at h
    cases hfirst : isNameless first with
    | true =>
      rw [hfirst] at h
      rw [parseFrom, ofString_eq, hfirst, Option.some.inj h]
      rfl
    | false =>
      rw [hfirst] at h
      rw [parseFrom_cons hfirst, ih h]

/-! ## Arguments as tokens -/

theorem addValues_nil (h : name ∈ Ordered.keys arguments) : addValues name [] arguments = arguments := by
  obtain ⟨values, hvalues⟩ : ∃ values, arguments.lookup name = some values :=
    Option.ne_none_iff_exists'.mp fun hnone => Ordered.lookup_eq_none_iff.mp hnone h
  rw [addValues, List.append_nil, hvalues]
  exact Ordered.insert_of_lookup hvalues

theorem addValues_addValues (name : String) (values more : List String) (arguments : Arguments) :
    addValues name more (addValues name values arguments) = addValues name (values ++ more) arguments := by
  rw [addValues, addValues, addValues, Ordered.lookup_insert_self, Option.getD_some, Ordered.insert_insert,
    List.append_assoc]

/-- Tokens that are no switches all go to the latest one. -/
theorem parseFrom_values (hvalues : ∀ value ∈ values, isMarked value = false)
    (h : current ∈ Ordered.keys arguments) :
    parseFrom aliases current arguments (values ++ rest) =
      parseFrom aliases current (addValues current values arguments) rest := by
  induction values generalizing arguments with
  | nil => rw [List.nil_append, addValues_nil h]
  | cons value values ih =>
    rw [List.forall_mem_cons] at hvalues
    rw [List.cons_append, parseFrom_cons (isNameless_of_not_isMarked hvalues.1), advance_of_not_isMarked hvalues.1,
      ih hvalues.2 (mem_keys_addValues current _ arguments), addValues_addValues, given, hvalues.1]
    rfl

theorem addValues_of_fresh (h : name ∉ Ordered.keys arguments) (values : List String) :
    addValues name values arguments = arguments ++ [(name, values)] := by
  rw [addValues, Ordered.lookup_eq_none_iff.mpr h, Ordered.insert_of_fresh _ h]
  rfl

theorem parseFrom_dashes (h : aliases.lookup name = none) :
    parseFrom aliases current arguments (("--" ++ name) :: rest) =
      parseFrom aliases name (addValues name [] arguments) rest := by
  have hswitch : Token.ofString ("--" ++ name) = .switch name := by
    rw [Token.ofString, String.toList_append]
    exact congrArg Token.switch String.ofList_toList
  have hname : canonical aliases name = name := by rw [canonical, h, Option.getD_none]
  rw [parseFrom, hswitch]
  simp only [hname]

theorem parseFrom_spelled (hd : Ordered.Distinct (result ++ arguments))
    (haliases : ∀ entry ∈ arguments, aliases.lookup entry.1 = none)
    (hvalues : ∀ entry ∈ arguments, ∀ value ∈ entry.2, isMarked value = false) :
    parseFrom aliases current result (spelled arguments) = .ok (result ++ arguments) := by
  induction arguments generalizing current result with
  | nil => rw [List.append_nil]; rfl
  | cons entry arguments ih =>
    obtain ⟨name, values⟩ := entry
    rw [List.forall_mem_cons] at haliases hvalues
    have hfresh : name ∉ Ordered.keys result := by
      intro hmem
      rw [Ordered.Distinct, Ordered.keys_append, List.nodup_append] at hd
      exact hd.2.2 name hmem name List.mem_cons_self rfl
    have happend : result ++ (name, values) :: arguments = (result ++ [(name, values)]) ++ arguments := by simp
    calc parseFrom aliases current result (spelled ((name, values) :: arguments))
        = parseFrom aliases name (addValues name [] result) (values ++ spelled arguments) :=
          parseFrom_dashes haliases.1
      _ = parseFrom aliases name (result ++ [(name, values)]) (spelled arguments) := by
          rw [parseFrom_values hvalues.1 (mem_keys_addValues name [] result), addValues_addValues, List.nil_append,
            addValues_of_fresh hfresh]
      _ = .ok (result ++ (name, values) :: arguments) := by
          rw [happend] at hd ⊢
          exact ih hd haliases.2 hvalues.2

/-- **Tokens are collected without loss, repetition or change of order.** A token that is a mark alone is refused, and
of several the first is reported. Otherwise every name is there once, in the order of first appearance, and has exactly
its values, in their order. And any arguments are what their own tokens are collected to, unless a name is an alias or
a value begins like a switch. -/
theorem parse_eq_collected (aliases : Aliases) :
    (∀ tokens, parse aliases tokens =
      match tokens.find? isNameless with
      | some token => .error (.argumentSyntax token)
      | none => .ok (collected aliases tokens)) ∧
    ∀ arguments : Arguments, Ordered.Distinct arguments →
      (∀ entry ∈ arguments, aliases.lookup entry.1 = none) →
      (∀ entry ∈ arguments, ∀ value ∈ entry.2, isMarked value = false) →
      parse aliases (spelled arguments) = .ok arguments := by
  refine ⟨fun tokens => ?_, fun arguments hd haliases hvalues => ?_⟩
  · cases h : tokens.find? isNameless with
    | some token => exact parseFrom_of_nameless h
    | none =>
      rw [List.find?_eq_none] at h
      exact parse_of_named (by simpa using h)
  · exact parseFrom_spelled (by simpa using hd) haliases hvalues

end

/-- A switch that comes again, one that stands for another, the empty name chosen again by two dashes alone, and a name
that begins with a dash itself. -/
theorem parse_eq_collected_names_again :
    parse [("h", "help")] ["p", "-x", "1", "--h", "/x", "2", "--", "q"] =
      .ok [("", ["p", "q"]), ("x", ["1", "2"]), ("help", [])] ∧
    parse [("h", "help")] ["-x", "/", "-"] = .error (.argumentSyntax "/") ∧
    spelled [("x", ["1", "2"]), ("", ["q"]), ("-h", [])] = ["--x", "1", "2", "--", "q", "---h"] ∧
    parse [("h", "help")] ["--x", "1", "2", "--", "q", "---h"] = .ok [("x", ["1", "2"]), ("", ["q"]), ("-h", [])] := by
  obtain ⟨hparse, hspelled⟩ := parse_eq_collected [("h", "help")]
  refine ⟨(hparse _).trans rfl, (hparse _).trans rfl, by decide, ?_⟩
  exact hspelled [("x", ["1", "2"]), ("", ["q"]), ("-h", [])] (by decide) (by decide) (by decide)

end LayeredConfig.Arguments
