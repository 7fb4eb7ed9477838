import GrowthGrammar.Program.Grow
import Mathlib.Data.List.Basic

/-!
# The arguments of `grow`

The arguments of `grow` are a sequence of items, options with their values and switches, and
`Options.parse` accepts exactly the lists that are written by one. An item takes what it needs from
the front of the arguments (`Options.parse_arguments_append`) and can be told from what follows it
(`Item.arguments_append_inj`), so a value may look like anything. Where no item starts the arguments
are refused (`Refused`). `parse_items` puts this together: which lists are accepted, what the
options are, and at which place and why all others are refused.
-/

namespace GrowthGrammar

/-! ## Numbers -/

/-- The text writes a number below a limit: digits, at least one, with at most one plus sign in
front. -/
def Writes (limit : Nat) (text : String) (n : Nat) : Prop :=
  ∃ digits : List Char, digits ≠ [] ∧ (∀ c ∈ digits, c.isDigit = true) ∧
    (text.toList = digits ∨ text.toList = '+' :: digits) ∧ natOfDigits digits = n ∧ n < limit

/-- What is read as a number is a text without the plus sign in front, if it has one. -/
theorem exists_digits (limit : Nat) (text : String) :
    ∃ digits : List Char, boundedNatOfText? limit text =
        (if digits ≠ [] ∧ digits.all Char.isDigit ∧ natOfDigits digits < limit then
          some (natOfDigits digits) else none) ∧
      (text.toList = '+' :: digits ∨
        text.toList = digits ∧ ∀ rest, text.toList ≠ '+' :: rest) := by
  refine ⟨_, rfl, ?_⟩
  split
  next rest hplus => exact .inl hplus
  next hplus => exact .inr ⟨rfl, hplus⟩

/-- A number is read exactly from the texts that write it. -/
theorem boundedNatOfText?_eq_some_iff {limit n : Nat} {text : String} :
    boundedNatOfText? limit text = some n ↔ Writes limit text n := by
  obtain ⟨digits, hread, htext⟩ := exists_digits limit text
  rw [hread, Option.ite_none_right_eq_some, List.all_eq_true, Option.some.injEq]
  constructor
  · rintro ⟨⟨hne, hdigits, hlt⟩, rfl⟩
    exact ⟨digits, hne, hdigits, htext.symm.imp_left And.left, rfl, hlt⟩
  · rintro ⟨digits', hne, hdigits, htext', rfl, hlt⟩
    have hsame : digits' = digits := by
      rcases htext with hplus | ⟨hall, hplus⟩ <;> rcases htext' with hall' | hplus'
      · -- a plus sign is no digit
        cases hdigits '+' (hall' ▸ hplus ▸ List.mem_cons_self)
      · exact (List.cons.inj (hplus'.symm.trans hplus)).2
      · exact hall'.symm.trans hall
      · exact absurd hplus' (hplus digits')
    subst hsame
    exact ⟨⟨hne, hdigits, hlt⟩, rfl⟩

theorem boundedNatOfText?_eq_none_iff {limit : Nat} {text : String} :
    boundedNatOfText? limit text = none ↔ ∀ n, ¬ Writes limit text n := by
  simp only [Option.eq_none_iff_forall_ne_some, ne_eq, boundedNatOfText?_eq_some_iff]

/-- A number that a text writes is below the limit. -/
theorem Writes.lt {limit n : Nat} {text : String} (h : Writes limit text n) : n < limit := by
  obtain ⟨_, _, _, _, _, hlt⟩ := h
  exact hlt

/-- A text writes at most one number. -/
theorem Writes.unique {limit m n : Nat} {text : String} (hm : Writes limit text m)
    (hn : Writes limit text n) : m = n :=
  Option.some.inj ((boundedNatOfText?_eq_some_iff.2 hm).symm.trans
    (boundedNatOfText?_eq_some_iff.2 hn))

namespace Program.Grow

/-! ## Items -/

/-- An item of the arguments: an option with its value, or a switch. The value of a numeric option
writes a number in range; any other value is any text. -/
inductive Item where
  | config (path : String)
  | grammar (path : String)
  | seed (text : String) (number : Nat) (writes : Writes UInt64.size text number)
  | generations (text : String) (number : Nat) (writes : Writes UInt32.size text number)
  | symbols
  | states
  | json

namespace Item

/-- The arguments that write an item. -/
def arguments : Item → List String
  | config path => ["--config", path]
  | grammar path => ["--grammar", path]
  | seed text _ _ => ["--seed", text]
  | generations text _ _ => ["--generations", text]
  | symbols => ["--symbols"]
  | states => ["--states"]
  | json => ["--json"]

/-- The arguments that write some items. -/
def written (items : List Item) : List String := items.flatMap arguments

/-- The path of a configuration. -/
def config? : Item → Option String
  | config path => some path
  | _ => none

/-- The path of a grammar. -/
def grammar? : Item → Option String
  | grammar path => some path
  | _ => none

/-- The number of a seed. -/
def seed? : Item → Option Nat
  | seed _ number _ => some number
  | _ => none

/-- The number of the generations. -/
def generations? : Item → Option Nat
  | generations _ number _ => some number
  | _ => none

@[simp] theorem written_nil : written [] = [] := rfl

@[simp] theorem written_cons (item : Item) (items : List Item) :
    written (item :: items) = item.arguments ++ written items := rfl

/-- An item can be told from what follows it. -/
theorem arguments_append_inj {item item' : Item} {rest rest' : List String}
    (h : item.arguments ++ rest = item'.arguments ++ rest') : item = item' ∧ rest = rest' := by
  cases item with
  | config path | grammar path =>
    cases item' <;> simp_all [arguments]
  | symbols | states | json =>
    cases item' <;> simp_all [arguments]
  | seed text number writes =>
    cases item' with
    | seed text' number' writes' =>
      obtain ⟨rfl, rfl⟩ : text = text' ∧ rest = rest' := by simpa [arguments] using h
      obtain rfl := writes.unique writes'
      exact ⟨rfl, rfl⟩
    | config | grammar | generations | symbols | states | json => simp [arguments] at h
  | generations text number writes =>
    cases item' with
    | generations text' number' writes' =>
      obtain ⟨rfl, rfl⟩ : text = text' ∧ rest = rest' := by simpa [arguments] using h
      obtain rfl := writes.unique writes'
      exact ⟨rfl, rfl⟩
    | config | grammar | seed | symbols | states | json => simp [arguments] at h

end Item

/-! ## What items set -/

namespace Options

/-- The options with one item more. -/
def set (o : Options) : Item → Options
  | .config path => { o with config? := some path }
  | .grammar path => { o with grammar? := some path }
  | .seed _ number _ => { o with seed? := some number.toUInt64 }
  | .generations _ number _ => { o with generations? := some number }
  | .symbols => { o with symbols := true }
  | .states => { o with states := true }
  | .json => { o with json := true }

/-- An item at the front of the arguments sets what it says. -/
theorem parse_arguments_append (o : Options) (item : Item) (rest : List String) :
    parse o (item.arguments ++ rest) = parse (o.set item) rest := by
  cases item with
  | config | grammar | symbols | states | json => rfl
  | seed text number writes =>
    rw [Item.arguments, List.cons_append, List.singleton_append, parse,
      boundedNatOfText?_eq_some_iff.2 writes]
    rfl
  | generations text number writes =>
    rw [Item.arguments, List.cons_append, List.singleton_append, parse,
      boundedNatOfText?_eq_some_iff.2 writes]
    rfl

/-- Items at the front of the arguments set what they say, one after the other. -/
theorem parse_written_append (o : Options) (items : List Item) (rest : List String) :
    parse o (Item.written items ++ rest) = parse (items.foldl set o) rest := by
  induction items generalizing o with
  | nil => rfl
  | cons item items ih =>
    rw [Item.written_cons, List.append_assoc, parse_arguments_append, ih, List.foldl_cons]

/-- A field that items may set has the value of the last item that sets it. -/
theorem foldl_set_last {β : Type} (field : Options → Option β) (value? : Item → Option β)
    (hset : ∀ o item, field (set o item) = (value? item).or (field o)) (o : Options)
    (items : List Item) :
    field (items.foldl set o) = (items.filterMap value?).getLast?.or (field o) := by
  induction items generalizing o with
  | nil => rfl
  | cons item items ih =>
    rw [List.foldl_cons, ih, hset, List.filterMap_cons]
    cases value? item with
    | none => rfl
    | some v =>
      rw [List.getLast?_cons]
      cases (items.filterMap value?).getLast? <;> rfl

/-- A switch is on if its item occurs, or if it was on before. -/
theorem foldl_set_switch (field : Options → Bool) (switch : Item)
    (hset : ∀ o item, field (set o item) = true ↔ item = switch ∨ field o = true) (o : Options)
    (items : List Item) :
    field (items.foldl set o) = true ↔ switch ∈ items ∨ field o = true := by
  induction items generalizing o with
  | nil => simp
  | cons item items ih =>
    rw [List.foldl_cons, ih, hset, List.mem_cons, eq_comm (a := item), or_left_comm, or_assoc]

/-- The options hold what some items say: an option has the value of its last item, and a switch is
on exactly if its item occurs. -/
structure Describes (o : Options) (items : List Item) : Prop where
  config? : o.config? = (items.filterMap Item.config?).getLast?
  grammar? : o.grammar? = (items.filterMap Item.grammar?).getLast?
  seed? : o.seed?.map UInt64.toNat = (items.filterMap Item.seed?).getLast?
  generations? : o.generations? = (items.filterMap Item.generations?).getLast?
  symbols : o.symbols = true ↔ Item.symbols ∈ items
  states : o.states = true ↔ Item.states ∈ items
  json : o.json = true ↔ Item.json ∈ items

/-- The number of a seed fits in a machine word, so it is kept. -/
theorem seed?_set (o : Options) (item : Item) :
    (o.set item).seed?.map UInt64.toNat = item.seed?.or (o.seed?.map UInt64.toNat) := by
  cases item with
  | seed text number writes => exact congrArg some (UInt64.toNat_ofNat_of_lt writes.lt)
  | config | grammar | generations | symbols | states | json => rfl

/-- Items that are set one after the other leave the options that they describe. -/
theorem describes_foldl (items : List Item) : Describes (items.foldl set {}) items where
  config? := (foldl_set_last Options.config? Item.config? (by rintro o ⟨⟩ <;> rfl) {} items).trans
    Option.or_none
  grammar? :=
    (foldl_set_last Options.grammar? Item.grammar? (by rintro o ⟨⟩ <;> rfl) {} items).trans
      Option.or_none
  seed? := (foldl_set_last (fun o => o.seed?.map UInt64.toNat) Item.seed? seed?_set {} items).trans
    Option.or_none
  generations? :=
    (foldl_set_last Options.generations? Item.generations? (by rintro o ⟨⟩ <;> rfl) {} items).trans
      Option.or_none
  symbols := by
    rw [foldl_set_switch Options.symbols .symbols (by rintro o ⟨⟩ <;> simp [set])]
    simp
  states := by
    rw [foldl_set_switch Options.states .states (by rintro o ⟨⟩ <;> simp [set])]
    simp
  json := by
    rw [foldl_set_switch Options.json .json (by rintro o ⟨⟩ <;> simp [set])]
    simp

end Options

/-! ## Refused arguments -/

/-- The options that take a value. -/
def valueOptions : List String := ["--config", "--grammar", "--seed", "--generations"]

/-- The options that take none. -/
def switches : List String := ["--symbols", "--states", "--json"]

/-- An item is written by a switch, or by an option and a value. -/
theorem Item.arguments_cases (item : Item) :
    (∃ switch ∈ switches, item.arguments = [switch]) ∨
      ∃ option ∈ valueOptions, ∃ value, item.arguments = [option, value] := by
  cases item with
  | symbols | states | json => exact .inl ⟨_, by simp [switches], rfl⟩
  | config | grammar | seed | generations => exact .inr ⟨_, by simp [valueOptions], _, rfl⟩

/-- The arguments start with no item, for a reason: a numeric option is followed by what writes no
number in range, or the first argument is unknown. An option that takes a value is unknown in last
place. -/
inductive Refused : List String → ArgumentError → Prop where
  | seed {text : String} {rest : List String} : (∀ n, ¬ Writes UInt64.size text n) →
      Refused ("--seed" :: text :: rest) (.notANumber "--seed" text)
  | generations {text : String} {rest : List String} : (∀ n, ¬ Writes UInt32.size text n) →
      Refused ("--generations" :: text :: rest) (.notANumber "--generations" text)
  | unknown {argument : String} {rest : List String} : argument ∉ switches →
      (argument ∈ valueOptions → rest = []) → Refused (argument :: rest) (.unknown argument)

namespace Refused

variable {rest : List String} {e : ArgumentError}

/-- No item starts where arguments are refused. -/
theorem arguments_append_ne (h : Refused rest e) (item : Item) (rest' : List String) :
    item.arguments ++ rest' ≠ rest := by
  intro hitem
  cases h with
  | seed h =>
    cases item with
    | seed text number writes =>
      obtain ⟨rfl, -⟩ : text = _ ∧ rest' = _ := by simpa [Item.arguments] using hitem
      exact h number writes
    | config | grammar | generations | symbols | states | json => simp [Item.arguments] at hitem
  | generations h =>
    cases item with
    | generations text number writes =>
      obtain ⟨rfl, -⟩ : text = _ ∧ rest' = _ := by simpa [Item.arguments] using hitem
      exact h number writes
    | config | grammar | seed | symbols | states | json => simp [Item.arguments] at hitem
  | unknown hswitch hvalue =>
    rcases item.arguments_cases with ⟨switch, hmem, harguments⟩ | ⟨option, hmem, value, harguments⟩
    · rw [harguments] at hitem
      obtain ⟨rfl, -⟩ := List.cons.inj hitem
      exact hswitch hmem
    · rw [harguments] at hitem
      obtain ⟨rfl, hrest⟩ := List.cons.inj hitem
      cases hrest.trans (hvalue hmem)

/-- Refused arguments are not parsed, whatever was set before them. -/
theorem parse_eq_error (h : Refused rest e) (o : Options) : o.parse rest = .error e := by
  cases h with
  | seed h =>
    rw [Options.parse, boundedNatOfText?_eq_none_iff.2 h]
  | generations h =>
    rw [Options.parse, boundedNatOfText?_eq_none_iff.2 h]
  | unknown hswitch hvalue =>
    rw [Options.parse.eq_def]
    split <;> simp_all [switches, valueOptions]

end Refused

/-! ## The split -/

/-- The arguments are written by items up to their end, or up to a place where they are refused. -/
def Splits (args : List String) : Prop :=
  ∃ items rest, args = Item.written items ++ rest ∧ (rest = [] ∨ ∃ e, Refused rest e)

theorem Splits.arguments_append {rest : List String} (item : Item) (h : Splits rest) :
    Splits (item.arguments ++ rest) := by
  obtain ⟨items, stop, rfl, hstop⟩ := h
  exact ⟨item :: items, stop, (List.append_assoc _ _ _).symm, hstop⟩

theorem Refused.splits {args : List String} {e : ArgumentError} (h : Refused args e) :
    Splits args :=
  ⟨[], args, rfl, .inr ⟨e, h⟩⟩

/-- All arguments split. The induction follows the parser. -/
theorem splits (args : List String) : Splits args := by
  have hparse : Options → Splits args := fun o => by
    induction o, args using Options.parse.induct with
    | case1 => exact ⟨[], [], rfl, .inl rfl⟩
    | case2 _ path _ ih => exact ih.arguments_append (.config path)
    | case3 _ path _ ih => exact ih.arguments_append (.grammar path)
    | case4 _ text _ n hread ih =>
      exact ih.arguments_append (.seed text n (boundedNatOfText?_eq_some_iff.1 hread))
    | case5 _ text _ hread => exact (Refused.seed (boundedNatOfText?_eq_none_iff.1 hread)).splits
    | case6 _ text _ n hread ih =>
      exact ih.arguments_append (.generations text n (boundedNatOfText?_eq_some_iff.1 hread))
    | case7 _ text _ hread =>
      exact (Refused.generations (boundedNatOfText?_eq_none_iff.1 hread)).splits
    | case8 _ _ ih => exact ih.arguments_append .symbols
    | case9 _ _ ih => exact ih.arguments_append .states
    | case10 _ _ ih => exact ih.arguments_append .json
    | case11 _ argument rest hconfig hgrammar hseed hgenerations hsymbols hstates hjson =>
      have hswitch : argument ∉ switches := by
        rintro (_ | ⟨_, _ | ⟨_, _ | ⟨_, ⟨⟩⟩⟩⟩)
        · exact hsymbols rfl
        · exact hstates rfl
        · exact hjson rfl
      refine (Refused.unknown hswitch fun hvalue => ?_).splits
      cases rest with
      | nil => rfl
      | cons value rest =>
        rcases hvalue with _ | ⟨_, _ | ⟨_, _ | ⟨_, _ | ⟨_, ⟨⟩⟩⟩⟩⟩
        · exact (hconfig value rest rfl rfl).elim
        · exact (hgrammar value rest rfl rfl).elim
        · exact (hseed value rest rfl rfl).elim
        · exact (hgenerations value rest rfl rfl).elim
  exact hparse {}

/-- Items that write the front of some arguments come first among those that write them up to a
place where they end or are refused. -/
theorem prefix_of_written_append {items items' : List Item} {rest rest' : List String}
    (hstop : rest = [] ∨ ∃ e, Refused rest e)
    (h : Item.written items ++ rest = Item.written items' ++ rest') : items' <+: items := by
  induction items generalizing items' with
  | nil =>
    cases items' with
    | nil => exact List.nil_prefix
    | cons item items' =>
      rw [Item.written_nil, List.nil_append, Item.written_cons, List.append_assoc] at h
      rcases hstop with rfl | ⟨e, hrefused⟩
      · cases item <;> cases h
      · exact absurd h.symm (hrefused.arguments_append_ne item _)
  | cons item items ih =>
    cases items' with
    | nil => exact List.nil_prefix
    | cons item' items' =>
      rw [Item.written_cons, Item.written_cons, List.append_assoc, List.append_assoc] at h
      obtain ⟨rfl, hrest⟩ := Item.arguments_append_inj h
      exact (List.prefix_cons_inj item).2 (ih hrest)

/-- Arguments are written by at most one list of items. -/
theorem Item.written_injective : Function.Injective Item.written := by
  intro items items' h
  have happend : Item.written items ++ [] = Item.written items' ++ [] := by rw [h]
  exact (prefix_of_written_append (.inl rfl) happend.symm).eq_of_length_le
    (prefix_of_written_append (.inl rfl) happend).length_le

/-- Arguments that items write are accepted, with what the items set. -/
theorem Options.parse_written (items : List Item) :
    Options.parse {} (Item.written items) = .ok (items.foldl set {}) := by
  have h := parse_written_append {} items []
  rwa [List.append_nil] at h

/-- Behind some items refused arguments are refused for the same reason. -/
theorem Refused.parse_written_append {rest : List String} {e : ArgumentError}
    (h : Refused rest e) (items : List Item) :
    Options.parse {} (Item.written items ++ rest) = .error e := by
  rw [Options.parse_written_append, h.parse_eq_error]

/-- A program that is not asked for help answers the reason why its arguments are refused. -/
theorem run_of_parse_eq_error {args : List String} {e : ArgumentError}
    (hhelp : ∀ a ∈ args, a ≠ "--help" ∧ a ≠ "-h") (h : Options.parse {} args = .error e)
    (files : FileReader) (fresh : Generator) : run args files fresh = e.transcript := by
  have hany : (args.any fun a => a = "--help" || a = "-h") = false := by
    rw [List.any_eq_false]
    intro a ha
    simp [hhelp a ha]
  rw [run, hany, if_neg Bool.false_ne_true, h]

/-- The arguments are accepted exactly if items write them. The items are unique, and the options
hold what they say. Other arguments are refused at the first place where no item starts: the items
before it are the most that can be split off, and a program that is not asked for help answers the
reason, with the exit code one. -/
theorem parse_items (args : List String) :
    ((∃ o, Options.parse {} args = .ok o) ↔ ∃ items, Item.written items = args) ∧
    (∀ items items', Item.written items = args → Item.written items' = args → items = items') ∧
    (∀ items, Item.written items = args →
      ∃ o, Options.parse {} args = .ok o ∧ o.Describes items) ∧
    ((¬ ∃ items, Item.written items = args) →
      ∃ items rest e, args = Item.written items ++ rest ∧ Refused rest e ∧
        (∀ items' rest', args = Item.written items' ++ rest' → items' <+: items) ∧
        Options.parse {} args = .error e ∧ e.transcript.code = 1 ∧
        ((∀ a ∈ args, a ≠ "--help" ∧ a ≠ "-h") →
          ∀ files fresh, run args files fresh = e.transcript)) := by
  obtain ⟨items, rest, hargs, hstop⟩ := splits args
  refine ⟨⟨fun ⟨o, ho⟩ => ?_, fun ⟨items, hitems⟩ => ?_⟩, fun items items' h h' => ?_,
    fun items hitems => ?_, fun hnone => ?_⟩
  · rcases hstop with rfl | ⟨e, hrefused⟩
    · exact ⟨items, by rw [hargs, List.append_nil]⟩
    · rw [hargs, hrefused.parse_written_append] at ho
      cases ho
  · exact ⟨_, hitems ▸ Options.parse_written items⟩
  · exact Item.written_injective (h.trans h'.symm)
  · exact ⟨_, hitems ▸ Options.parse_written items, Options.describes_foldl items⟩
  · rcases hstop with rfl | ⟨e, hrefused⟩
    · exact absurd ⟨items, by rw [hargs, List.append_nil]⟩ hnone
    · have herror : Options.parse {} args = .error e := hargs ▸ hrefused.parse_written_append items
      have hfirst : ∀ items' rest', args = Item.written items' ++ rest' → items' <+: items :=
        fun items' rest' h => prefix_of_written_append (.inr ⟨e, hrefused⟩) (hargs.symm.trans h)
      have hcode : e.transcript.code = 1 := by cases e <;> rfl
      exact ⟨items, rest, e, hargs, hrefused, hfirst, herror, hcode, fun hhelp =>
        run_of_parse_eq_error hhelp herror⟩

/-- A value may look like an option, but an option in last place has no value. -/
example : Refused ["--seed"] (.unknown "--seed") ∧
    ["--config", "--json", "--states", "--seed"] =
      Item.written [.config "--json", .states] ++ ["--seed"] :=
  ⟨.unknown (by simp [switches]) fun _ => rfl, rfl⟩

end Program.Grow

end GrowthGrammar
