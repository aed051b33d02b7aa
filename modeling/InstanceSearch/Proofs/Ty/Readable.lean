/-
  Types can be read back from their texts.

  THE TEXT
    A text is made of words and of the DELIMITERS, which are the blank and  < > ( ) , ? -  .  A name holds
    no delimiter, so it ends where the next one stands (`word_append_inj`).

  WHAT CAN BE READ (`Ty.Readable`)
    A variable is written by its number after a question mark, or by its place after an underscore; a
    constructor by its name, which does not begin with an underscore; everything else begins with a
    bracket.  So the first character says what is written.

  THE STATEMENT (`Ty.Readable.append_inj`)
    A text that is followed by more text still determines its type and where it ends, if what follows
    closes a bracket, goes on with a comma, or is nothing.  A tuple and a function begin alike; but after
    its bracket a function goes on with a blank, and nothing that may follow a tuple does.
-/
import InstanceSearch.Capability

namespace InstanceSearch

/-! ## Words -/

/-- The characters that give a text its structure. -/
def delimiters : List Char := [' ', '<', '>', '(', ')', ',', '?', '-']

/-- `Word w`: no delimiter stands in `w`. -/
def Word (w : List Char) : Prop := ∀ c ∈ w, c ∉ delimiters

instance (w : List Char) : Decidable (Word w) := List.decidableBAll (fun c => c ∉ delimiters) w

/-- `Goes cs r`: the text goes on with one of the characters `cs`, or it is at its end. -/
def Goes (cs r : List Char) : Prop := ∀ c ∈ r.head?, c ∈ cs

section Goes

variable {cs ds r : List Char}

theorem Goes.mono (h : Goes cs r) (hsub : cs ⊆ ds) : Goes ds r := fun c hc => hsub (h c hc)

theorem Goes.ne_cons (h : Goes cs r) {c : Char} (hc : c ∉ cs) (x : List Char) : r ≠ c :: x := by
  rintro rfl
  exact hc (h c rfl)

theorem goes_cons {c : Char} (h : c ∈ cs) (x : List Char) : Goes cs (c :: x) := by
  intro d hd
  cases hd
  exact h

end Goes

/-- **A word ends at the first delimiter.** -/
theorem word_append_inj {w w' r r' : List Char} (hw : Word w) (hw' : Word w')
    (hr : Goes delimiters r) (hr' : Goes delimiters r') (h : w ++ r = w' ++ r') : w = w' ∧ r = r' := by
  have hread : ∀ w r : List Char, Word w → Goes delimiters r →
      (w ++ r).takeWhile (fun c => decide (c ∉ delimiters)) = w := by
    intro w r hw hr
    rw [List.takeWhile_append_of_pos fun c hc => decide_eq_true (hw c hc)]
    cases r with
    | nil => rw [List.takeWhile_nil, List.append_nil]
    | cons c r =>
      have hc : c ∈ delimiters := hr c rfl
      rw [List.takeWhile_cons_of_neg (by simp [hc]), List.append_nil]
  have heq : w = w' := by rw [← hread w r hw hr, h, hread w' r' hw' hr']
  exact ⟨heq, List.append_cancel_left (heq ▸ h)⟩

/-- `IsName s`: a word of at least one character, the first of which is not an underscore. -/
structure IsName (s : String) : Prop where
  nonempty : s.toList ≠ []
  word : Word s.toList
  start : s.toList.head? ≠ some '_'

instance (s : String) : Decidable (IsName s) :=
  decidable_of_iff (s.toList ≠ [] ∧ Word s.toList ∧ s.toList.head? ≠ some '_')
    ⟨fun h => ⟨h.1, h.2.1, h.2.2⟩, fun h => ⟨h.nonempty, h.word, h.start⟩⟩

/-- A name begins with a character that nothing else begins with. -/
theorem IsName.exists_cons {name : String} (h : IsName name) :
    ∃ c cs, name.toList = c :: cs ∧ c ∉ delimiters ∧ c ≠ '_' := by
  obtain ⟨c, cs, hc⟩ := List.exists_cons_of_ne_nil h.nonempty
  refine ⟨c, cs, hc, h.word c (hc ▸ List.mem_cons_self), ?_⟩
  rintro rfl
  exact h.start (by rw [hc]; rfl)

/-- The digits of a number. -/
def digits (n : Nat) : List Char := Nat.toDigits 10 n

theorem toList_toString (n : Nat) : (toString n).toList = digits n := by
  rw [Nat.toString_eq_ofList_toDigits, String.toList_ofList, digits]

theorem digits_injective : Function.Injective digits := by
  intro m n h
  rw [← Nat.ofDigitChars_ten_toDigits (n := m), ← Nat.ofDigitChars_ten_toDigits (n := n)]
  exact congrArg (fun ds => Nat.ofDigitChars 10 ds 0) h

theorem word_digits (n : Nat) : Word (digits n) := by
  intro c hc hdelim
  have hdigit : c.isDigit = true := Nat.isDigit_of_mem_toDigits (by decide) (by decide) hc
  have hnone : ∀ c ∈ delimiters, (!c.isDigit) = true := List.all_eq_true.1 (by decide)
  have hother := hnone c hdelim
  rw [hdigit] at hother
  cases hother

/-! ## What can be read -/

namespace Ty

/-- A type whose variables are written by number or by place, and whose constructors have names. -/
inductive Readable : Ty → Prop where
  | number (v : VarId) : Readable (.var v none)
  | place (i : Nat) : Readable (.var i (some ("_" ++ toString i)))
  | con {name : String} {args : List Ty} (hname : IsName name) (hargs : ∀ t ∈ args, Readable t) :
      Readable (.app (.con name) args)
  | tuple {args : List Ty} (hargs : ∀ t ∈ args, Readable t) : Readable (.app .tuple args)
  | arrow {args : List Ty} (hargs : ∀ t ∈ args, Readable t) : Readable (.app .arrow args)

/-- The characters of a type's text. -/
def chars (t : Ty) : List Char := t.text.toList

/-- `following ts` = the members of a list that does not begin here, each after a comma and a blank. -/
def following : List Ty → List Char
  | [] => []
  | t :: ts => ',' :: ' ' :: (t.chars ++ following ts)

/-- `listing ts` = the members of a list from the first one on. -/
def listing : List Ty → List Char
  | [] => []
  | t :: ts => t.chars ++ following ts

/-- `bracketed ts` = the arguments of a constructor, if there are any. -/
def bracketed : List Ty → List Char
  | [] => []
  | t :: ts => '<' :: (listing (t :: ts) ++ ['>'])

/-- The result of a function, if its arguments have one. -/
def resulting (ts : List Ty) : List Char :=
  match ts.getLast? with
  | none => []
  | some r => ' ' :: r.chars

theorem toList_commas (ts : List Ty) : (commas (ts.map text)).toList = listing ts := by
  cases ts with
  | nil => rfl
  | cons t ts =>
    induction ts generalizing t with
    | nil => simp [commas, listing, following, chars]
    | cons u ts ih =>
      have hrest := ih u
      rw [commas, List.map_cons] at hrest
      rw [commas, List.map_cons, List.map_cons, String.intercalate_cons_cons, String.toList_append,
        String.toList_append, hrest]
      simp [listing, following, chars]

/-! ### The text of each kind of type -/

theorem chars_number (v : VarId) : (Ty.var v none).chars = '?' :: digits v := by
  rw [chars, text_var, varText, String.toList_append, toList_toString]
  rfl

theorem chars_place (i : Nat) : (Ty.var i (some ("_" ++ toString i))).chars = '_' :: digits i := by
  rw [chars, text_var, varText, String.toList_append, toList_toString]
  rfl

theorem chars_con (name : String) (ts : List Ty) :
    (Ty.app (.con name) ts).chars = name.toList ++ bracketed ts := by
  cases ts with
  | nil => simp [chars, Former.write, applied, bracketed]
  | cons t ts => simp [chars, Former.write, applied, bracketed, toList_commas, -List.map_cons]

theorem chars_tuple (ts : List Ty) : (Ty.app .tuple ts).chars = '(' :: (listing ts ++ [')']) := by
  rw [chars, text_app, ← toList_commas]
  simp [Former.write]

theorem chars_arrow (ts : List Ty) : (Ty.app .arrow ts).chars =
    '(' :: (listing ts.dropLast ++ ')' :: ' ' :: '-' :: '>' :: resulting ts) := by
  rw [chars, text_app, ← toList_commas, resulting]
  cases h : ts.getLast? with
  | none => simp [Former.write, List.map_dropLast, h]
  | some r => simp [Former.write, List.map_dropLast, h, chars]

/-! ### What may follow -/

/-- The characters that a list ends at. -/
def closing : List Char := ['>', ')']

/-- The characters that a type ends at. -/
def ending : List Char := [',', '>', ')']

theorem goes_ending {r : List Char} (h : Goes closing r) : Goes ending r := h.mono (by decide)

theorem goes_delimiters {r : List Char} (h : Goes ending r) : Goes delimiters r := h.mono (by decide)

theorem goes_following {r : List Char} (h : Goes closing r) (ts : List Ty) :
    Goes ending (following ts ++ r) := by
  cases ts with
  | nil => exact goes_ending h
  | cons t ts => exact goes_cons (by decide) _

theorem goes_bracketed {r : List Char} (h : Goes ending r) (ts : List Ty) :
    Goes delimiters (bracketed ts ++ r) := by
  cases ts with
  | nil => exact goes_delimiters h
  | cons t ts => exact goes_cons (by decide) _

/-! ### The first character -/

/-- The kinds of types that the first character of a text tells apart. -/
inductive Kind where
  | number
  | place
  | constructed
  /-- a tuple or a function -/
  | bracketed
deriving DecidableEq

/-- The kind of type that a text with this first character is of; no text begins with the delimiters that
    are left. -/
def Kind.ofFirst? (c : Char) : Option Kind :=
  if c = '?' then some .number
  else if c = '(' then some .bracketed
  else if c ∈ delimiters then none
  else if c = '_' then some .place
  else some .constructed

/-- The kind of a readable type. -/
def kind : Ty → Kind
  | .var _ none => .number
  | .var _ (some _) => .place
  | .app (.con _) _ => .constructed
  | .app .tuple _ | .app .arrow _ => .bracketed

/-- **The first character of a text says of which kind the type is.** -/
theorem Readable.exists_cons {t : Ty} (h : t.Readable) :
    ∃ c cs, t.chars = c :: cs ∧ Kind.ofFirst? c = some t.kind := by
  cases h with
  | number v => exact ⟨_, _, chars_number v, rfl⟩
  | place i => exact ⟨_, _, chars_place i, rfl⟩
  | @con name args hname _ =>
    obtain ⟨c, cs, hc, hdelim, hstart⟩ := hname.exists_cons
    refine ⟨c, cs ++ bracketed args, by rw [chars_con, hc]; rfl, ?_⟩
    have hquestion : c ≠ '?' := fun he => hdelim (he ▸ by decide)
    have hopen : c ≠ '(' := fun he => hdelim (he ▸ by decide)
    simp [Kind.ofFirst?, hquestion, hopen, hdelim, hstart, kind]
  | @tuple args _ => exact ⟨_, _, chars_tuple args, rfl⟩
  | @arrow args _ => exact ⟨_, _, chars_arrow args, rfl⟩

/-- A text does not begin the way a text may go on. -/
theorem Readable.not_goes {t : Ty} (h : t.Readable) (r : List Char) : ¬ Goes closing (t.chars ++ r) := by
  obtain ⟨c, cs, hc, hkind⟩ := h.exists_cons
  intro hgoes
  have hfirst : c ∈ closing := hgoes c (by rw [hc]; rfl)
  have hnone : ∀ c ∈ closing, (Kind.ofFirst? c).isNone = true := List.all_eq_true.1 (by decide)
  have hother := hnone c hfirst
  rw [hkind] at hother
  cases hother

theorem Readable.kind_eq {t u : Ty} {r r' : List Char} (h : t.Readable) (hu : u.Readable)
    (heq : t.chars ++ r = u.chars ++ r') : t.kind = u.kind := by
  obtain ⟨c, cs, hc, hkind⟩ := h.exists_cons
  obtain ⟨d, ds, hd, hkind'⟩ := hu.exists_cons
  rw [hc, hd] at heq
  rw [(List.cons.inj heq).1, hkind'] at hkind
  exact (Option.some.inj hkind).symm

/-! ### Reading -/

/-- `t.Reads`: where the text of a readable type begins as the text of `t` does, that type is `t`. -/
def Reads (t : Ty) : Prop :=
  ∀ (u : Ty) (r r' : List Char), u.Readable → Goes ending r → Goes ending r' →
    t.chars ++ r = u.chars ++ r' → t = u ∧ r = r'

section Lists

variable {ts us : List Ty} {r r' : List Char}

theorem following_append_inj (hts : ∀ t ∈ ts, t.Reads) (hus : ∀ u ∈ us, u.Readable)
    (hr : Goes closing r) (hr' : Goes closing r') (h : following ts ++ r = following us ++ r') :
    ts = us ∧ r = r' := by
  induction ts generalizing us with
  | nil =>
    cases us with
    | nil => exact ⟨rfl, h⟩
    | cons u us => exact absurd h (hr.ne_cons (by decide) _)
  | cons t ts ih =>
    rw [List.forall_mem_cons] at hts
    cases us with
    | nil => exact absurd h.symm (hr'.ne_cons (by decide) _)
    | cons u us =>
      rw [List.forall_mem_cons] at hus
      have htext : t.chars ++ (following ts ++ r) = u.chars ++ (following us ++ r') := by
        simpa [following] using h
      obtain ⟨rfl, hrest⟩ := hts.1 u _ _ hus.1 (goes_following hr ts) (goes_following hr' us) htext
      obtain ⟨rfl, hr⟩ := ih hts.2 hus.2 hrest
      exact ⟨rfl, hr⟩

/-- **A list is read member by member**, up to the bracket that closes it. -/
theorem listing_append_inj (hts : ∀ t ∈ ts, t.Readable ∧ t.Reads) (hus : ∀ u ∈ us, u.Readable)
    (hr : Goes closing r) (hr' : Goes closing r') (h : listing ts ++ r = listing us ++ r') :
    ts = us ∧ r = r' := by
  cases ts with
  | nil =>
    cases us with
    | nil => exact ⟨rfl, h⟩
    | cons u us =>
      have hnone := (hus u List.mem_cons_self).not_goes (following us ++ r')
      rw [← List.append_assoc, ← listing, ← h] at hnone
      exact absurd hr hnone
  | cons t ts =>
    rw [List.forall_mem_cons] at hts
    cases us with
    | nil =>
      have hnone := hts.1.1.not_goes (following ts ++ r)
      rw [← List.append_assoc, ← listing, h] at hnone
      exact absurd hr' hnone
    | cons u us =>
      rw [List.forall_mem_cons] at hus
      rw [listing, listing, List.append_assoc, List.append_assoc] at h
      obtain ⟨rfl, hrest⟩ := hts.1.2 u _ _ hus.1 (goes_following hr ts) (goes_following hr' us) h
      obtain ⟨rfl, hr⟩ := following_append_inj (fun t ht => (hts.2 t ht).2) hus.2 hr hr' hrest
      exact ⟨rfl, hr⟩

theorem bracketed_append_inj (hts : ∀ t ∈ ts, t.Readable ∧ t.Reads) (hus : ∀ u ∈ us, u.Readable)
    (hr : Goes ending r) (hr' : Goes ending r') (h : bracketed ts ++ r = bracketed us ++ r') :
    ts = us ∧ r = r' := by
  cases ts with
  | nil =>
    cases us with
    | nil => exact ⟨rfl, h⟩
    | cons u us => exact absurd h (hr.ne_cons (by decide) _)
  | cons t ts =>
    cases us with
    | nil => exact absurd h.symm (hr'.ne_cons (by decide) _)
    | cons u us =>
      have hlist : listing (t :: ts) ++ '>' :: r = listing (u :: us) ++ '>' :: r' := by
        simpa [bracketed] using h
      obtain ⟨heq, hrest⟩ := listing_append_inj hts hus (goes_cons (by decide) r)
        (goes_cons (by decide) r') hlist
      exact ⟨heq, (List.cons.inj hrest).2⟩

theorem resulting_append_inj (hts : ∀ t ∈ ts, t.Reads) (hus : ∀ u ∈ us, u.Readable)
    (hr : Goes ending r) (hr' : Goes ending r') (hparams : ts.dropLast = us.dropLast)
    (h : resulting ts ++ r = resulting us ++ r') : ts = us ∧ r = r' := by
  unfold resulting at h
  cases hlast : ts.getLast? with
  | none =>
    rw [hlast] at h
    cases hlast' : us.getLast? with
    | none =>
      rw [hlast'] at h
      rw [List.getLast?_eq_none_iff.1 hlast, List.getLast?_eq_none_iff.1 hlast']
      exact ⟨rfl, h⟩
    | some u =>
      rw [hlast'] at h
      exact absurd h (hr.ne_cons (by decide) _)
  | some t =>
    rw [hlast] at h
    cases hlast' : us.getLast? with
    | none =>
      rw [hlast'] at h
      exact absurd h.symm (hr'.ne_cons (by decide) _)
    | some u =>
      rw [hlast'] at h
      obtain ⟨rfl, hrest⟩ := hts t (List.mem_of_getLast? hlast) u r r'
        (hus u (List.mem_of_getLast? hlast')) hr hr' (List.cons.inj h).2
      obtain ⟨ps, rfl⟩ := List.getLast?_eq_some_iff.1 hlast
      obtain ⟨qs, rfl⟩ := List.getLast?_eq_some_iff.1 hlast'
      rw [List.dropLast_concat, List.dropLast_concat] at hparams
      exact ⟨by rw [hparams], hrest⟩

end Lists

section Kinds

variable {args : List Ty}

theorem reads_number (v : VarId) : (Ty.var v none).Reads := by
  intro u r r' hu hr hr' heq
  have hkind := Readable.kind_eq (.number v) hu heq
  cases hu with
  | number w =>
    rw [chars_number, chars_number] at heq
    obtain ⟨hdigits, hrest⟩ := word_append_inj (word_digits v) (word_digits w) (goes_delimiters hr)
      (goes_delimiters hr') (List.cons.inj heq).2
    exact ⟨by rw [digits_injective hdigits], hrest⟩
  | place j => cases hkind
  | con _ _ => cases hkind
  | tuple _ => cases hkind
  | arrow _ => cases hkind

theorem reads_place (i : Nat) : (Ty.var i (some ("_" ++ toString i))).Reads := by
  intro u r r' hu hr hr' heq
  have hkind := Readable.kind_eq (.place i) hu heq
  cases hu with
  | number w => cases hkind
  | place j =>
    rw [chars_place, chars_place] at heq
    obtain ⟨hdigits, hrest⟩ := word_append_inj (word_digits i) (word_digits j) (goes_delimiters hr)
      (goes_delimiters hr') (List.cons.inj heq).2
    exact ⟨by rw [digits_injective hdigits], hrest⟩
  | con _ _ => cases hkind
  | tuple _ => cases hkind
  | arrow _ => cases hkind

theorem reads_con {name : String} (hname : IsName name) (h : ∀ t ∈ args, t.Readable ∧ t.Reads) :
    (Ty.app (.con name) args).Reads := by
  intro u r r' hu hr hr' heq
  have hkind := Readable.kind_eq (.con hname fun t ht => (h t ht).1) hu heq
  cases hu with
  | number w => cases hkind
  | place j => cases hkind
  | @con name' args' hname' hargs' =>
    rw [chars_con, chars_con, List.append_assoc, List.append_assoc] at heq
    obtain ⟨hnames, hrest⟩ := word_append_inj hname.word hname'.word (goes_bracketed hr args)
      (goes_bracketed hr' args') heq
    obtain ⟨rfl, hend⟩ := bracketed_append_inj h hargs' hr hr' hrest
    exact ⟨by rw [String.toList_inj.1 hnames], hend⟩
  | tuple _ => cases hkind
  | arrow _ => cases hkind

/-- The text of a tuple or a function up to its closing bracket, and what follows that. -/
theorem split_brackets {ts us : List Ty} (r r' : List Char) (hts : ∀ t ∈ ts, t.Readable ∧ t.Reads)
    (hus : ∀ u ∈ us, u.Readable)
    (h : '(' :: (listing ts ++ ')' :: r) = '(' :: (listing us ++ ')' :: r')) : ts = us ∧ r = r' := by
  obtain ⟨heq, hrest⟩ := listing_append_inj hts hus (goes_cons (by decide) r)
    (goes_cons (by decide) r') (List.cons.inj h).2
  exact ⟨heq, (List.cons.inj hrest).2⟩

theorem reads_tuple (h : ∀ t ∈ args, t.Readable ∧ t.Reads) : (Ty.app .tuple args).Reads := by
  intro u r r' hu hr hr' heq
  have hkind := Readable.kind_eq (.tuple fun t ht => (h t ht).1) hu heq
  cases hu with
  | number w => cases hkind
  | place j => cases hkind
  | con _ _ => cases hkind
  | @tuple args' hargs' =>
    rw [chars_tuple, chars_tuple] at heq
    obtain ⟨rfl, hrest⟩ := split_brackets r r' h hargs' (by simpa using heq)
    exact ⟨rfl, hrest⟩
  | @arrow args' hargs' =>
    rw [chars_tuple, chars_arrow] at heq
    obtain ⟨-, hrest⟩ := split_brackets r (' ' :: '-' :: '>' :: (resulting args' ++ r')) h
      (fun t ht => hargs' t (List.dropLast_subset _ ht)) (by simpa using heq)
    exact absurd hrest (hr.ne_cons (by decide) _)

theorem reads_arrow (h : ∀ t ∈ args, t.Readable ∧ t.Reads) : (Ty.app .arrow args).Reads := by
  intro u r r' hu hr hr' heq
  have hkind := Readable.kind_eq (.arrow fun t ht => (h t ht).1) hu heq
  cases hu with
  | number w => cases hkind
  | place j => cases hkind
  | con _ _ => cases hkind
  | @tuple args' hargs' =>
    rw [chars_tuple, chars_arrow] at heq
    obtain ⟨-, hrest⟩ := split_brackets (' ' :: '-' :: '>' :: (resulting args ++ r)) r'
      (fun t ht => h t (List.dropLast_subset _ ht)) hargs' (by simpa using heq)
    exact absurd hrest.symm (hr'.ne_cons (by decide) _)
  | @arrow args' hargs' =>
    rw [chars_arrow, chars_arrow] at heq
    obtain ⟨hparams, hrest⟩ := split_brackets (' ' :: '-' :: '>' :: (resulting args ++ r))
      (' ' :: '-' :: '>' :: (resulting args' ++ r')) (fun t ht => h t (List.dropLast_subset _ ht))
      (fun t ht => hargs' t (List.dropLast_subset _ ht)) (by simpa using heq)
    obtain ⟨rfl, hend⟩ := resulting_append_inj (fun t ht => (h t ht).2) hargs' hr hr' hparams
      (by simpa using hrest)
    exact ⟨rfl, hend⟩

end Kinds

/-- **A type is read back from its text**, and so is where its text ends. -/
theorem Readable.append_inj {t : Ty} (h : t.Readable) : t.Reads := by
  induction h with
  | number v => exact reads_number v
  | place i => exact reads_place i
  | con hname hargs ih => exact reads_con hname fun t ht => ⟨hargs t ht, ih t ht⟩
  | tuple hargs ih => exact reads_tuple fun t ht => ⟨hargs t ht, ih t ht⟩
  | arrow hargs ih => exact reads_arrow fun t ht => ⟨hargs t ht, ih t ht⟩

/-! ### The names in a type -/

end Ty

/-- The name of a constructor; tuples and functions have none. -/
def Former.names : Former → List String
  | .con name => [name]
  | .tuple | .arrow => []

namespace Ty

mutual
/-- The names of the constructors in a type, each as often as it occurs. -/
def names : Ty → List String
  | .var _ _ => []
  | .app f args => f.names ++ namesAll args

/-- The names of the constructors in a list of types. -/
def namesAll : List Ty → List String
  | [] => []
  | t :: ts => names t ++ namesAll ts
end

theorem names_app (f : Former) (args : List Ty) :
    (Ty.app f args).names = f.names ++ args.flatMap names := by
  have hall : ∀ ts : List Ty, namesAll ts = ts.flatMap names := by
    intro ts
    induction ts with
    | nil => rfl
    | cons t ts ih => rw [namesAll, ih, List.flatMap_cons]
  rw [names, hall]

/-- A type whose constructors have names is readable once its variables are written. -/
theorem readable_replaceVars {f : VarId → Option String → Ty} (hf : ∀ v n, (f v n).Readable) {t : Ty}
    (h : ∀ name ∈ t.names, IsName name) : (t.replaceVars f).Readable := by
  induction t using induction with
  | var v n => exact hf v n
  | app k args ih =>
    rw [names_app] at h
    have hargs : ∀ u ∈ args.map (replaceVars f), u.Readable := by
      rw [List.forall_mem_map]
      intro t ht
      exact ih t ht fun name hname => h name (List.mem_append_right _ (List.mem_flatMap.2 ⟨t, ht, hname⟩))
    rw [replaceVars_app]
    cases k with
    | con name => exact .con (h name (List.mem_append_left _ (List.mem_singleton.2 rfl))) hargs
    | tuple => exact .tuple hargs
    | arrow => exact .arrow hargs

end Ty

/-! ## Capabilities -/

namespace Capability

/-- A capability as a type, its concept as the constructor; the two are written alike. -/
def asTy (c : Capability) : Ty := Ty.con c.concept c.args

theorem text_asTy (c : Capability) : c.asTy.text = c.text := by
  rw [asTy, Ty.con, Ty.text_app, text]
  rfl

theorem asTy_injective : Function.Injective asTy := by
  rintro ⟨name, args⟩ ⟨name', args'⟩ h
  simpa [asTy, Ty.con] using h

/-- The names in a capability: that of its concept, then those in its arguments. -/
def names (c : Capability) : List String := c.concept :: c.args.flatMap Ty.names

/-- A capability whose concept and constructors have names. -/
def WellNamed (c : Capability) : Prop := ∀ name ∈ c.names, IsName name

instance (c : Capability) : Decidable c.WellNamed :=
  inferInstanceAs (Decidable (∀ name ∈ c.names, IsName name))

theorem WellNamed.readable {c : Capability} (h : c.WellNamed) {f : VarId → Option String → Ty}
    (hf : ∀ v n, (f v n).Readable) : (c.map (Ty.replaceVars f)).asTy.Readable := by
  refine .con (h c.concept List.mem_cons_self) ?_
  rw [args_map, List.forall_mem_map]
  intro t ht
  refine Ty.readable_replaceVars hf fun name hname => h name (List.mem_cons_of_mem _ ?_)
  exact List.mem_flatMap.2 ⟨t, ht, hname⟩

/-- **A list of capabilities is read back from its text.** -/
theorem listText_inj {cs ds : List Capability} (hcs : ∀ c ∈ cs, c.asTy.Readable)
    (hds : ∀ d ∈ ds, d.asTy.Readable) (h : listText cs = listText ds) : cs = ds := by
  have htext : ∀ cs : List Capability, (listText cs).toList = Ty.listing (cs.map asTy) := by
    intro cs
    rw [← Ty.toList_commas, listText, List.map_map]
    congr 3
    funext c
    exact (text_asTy c).symm
  have hlist : Ty.listing (cs.map asTy) ++ [] = Ty.listing (ds.map asTy) ++ [] := by
    rw [← htext, ← htext, h]
  have hnothing : Goes Ty.closing [] := fun c hc => nomatch hc
  obtain ⟨heq, -⟩ := Ty.listing_append_inj
    (List.forall_mem_map.2 fun c hc => ⟨hcs c hc, (hcs c hc).append_inj⟩) (List.forall_mem_map.2 hds)
    hnothing hnothing hlist
  exact (List.map_inj_right fun _ _ h => asTy_injective h).1 heq

end Capability

end InstanceSearch
