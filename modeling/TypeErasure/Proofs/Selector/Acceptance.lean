import TypeErasure.Proofs.Failing
import TypeErasure.Proofs.Selector.Grammar

/-! # Reading and the grammar

The scanner accepts just the texts of the grammar. What it has read of a text is a text of the part
it found; and it reads a text of a part in front of anything that cannot belong to that part, which
is how the grammar goes on behind it.
-/
namespace TypeErasure.Selector

variable {opened cs rest : List Char}

/-! ## What is read is a text of its part -/

theorem scanValue_split {value : String} (h : scanValue opened cs = .ok (value, rest)) :
    ∃ text, ValueText text value ∧ cs = text ++ rest := by
  cases cs with
  | nil => cases h
  | cons c cs =>
    rw [scanValue] at h
    by_cases hquote : c = '"' ∨ c = '\''
    · rw [if_pos hquote] at h
      rcases htaken : takeRun (· != c) cs with ⟨word, _ | ⟨d, rest'⟩⟩
      · rw [htaken] at h
        cases h
      · rw [htaken] at h
        obtain ⟨hsplit, hrun, hstop⟩ := takeRun_split htaken
        cases h
        obtain rfl : d = c := by simpa using hstop d rfl
        refine ⟨d :: (value.toList ++ [d]), ?_, by simp [hsplit]⟩
        have htext := ValueText.quoted hquote fun hmem => by simpa using hrun d hmem
        rw [String.ofList_toList] at htext
        exact htext
    · rw [if_neg hquote] at h
      by_cases hends : endsBareValue c = true
      · rw [if_pos hends] at h
        cases h
      · rw [if_neg hends] at h
        obtain ⟨hsplit, hrun, hstop⟩ := takeRun_split (Except.ok.inj h)
        refine ⟨value.toList, ?_, hsplit⟩
        cases hvalue : value.toList with
        | nil =>
          rw [hvalue, List.nil_append] at hsplit
          have haccepts := hstop c (by rw [← hsplit]; rfl)
          exact absurd haccepts (by simpa using hends)
        | cons d run =>
          rw [hvalue] at hsplit hrun
          obtain ⟨rfl, -⟩ := List.cons.inj hsplit
          rw [← value.ofList_toList, hvalue]
          exact .bare hquote fun d' hd' => by simpa [endsBareValue] using hrun d' hd'

theorem scanAttributeName_split {name : String}
    (h : scanAttributeName opened cs = .ok (name, rest)) : cs = name.toList ++ rest := by
  cases cs with
  | nil => cases h
  | cons c cs =>
    rw [scanAttributeName] at h
    by_cases hstart : isWordStart c = true
    · rw [if_pos hstart] at h
      exact (takeRun_split (Except.ok.inj h)).1
    · rw [if_neg hstart] at h
      cases h

theorem scanOptionalValue_split {value : Option String}
    (h : scanOptionalValue opened cs = .ok (value, rest)) :
    ∃ text, OptionalValueText text value ∧ cs = text ++ rest := by
  unfold scanOptionalValue at h
  split at h
  · rename_i cs
    obtain ⟨⟨value, rest'⟩, hvalue, h⟩ := exists_of_bind_eq_ok h
    cases h
    obtain ⟨before, hbefore, hcs⟩ := exists_blanks cs
    obtain ⟨text, htext, hsplit⟩ := scanValue_split hvalue
    obtain ⟨after, hafter, hrest'⟩ := exists_blanks rest'
    refine ⟨_, .present hbefore htext hafter, ?_⟩
    have hpresent : '=' :: cs = '=' :: (before ++ text ++ after) ++ Text.dropBlanks rest' := by
      rw [List.cons_append, List.append_assoc, ← hrest', List.append_assoc, ← hsplit, ← hcs]
    exact hpresent
  · cases h
    exact ⟨[], .absent, rfl⟩

theorem scanClosing_split (h : scanClosing opened cs = .ok rest) : cs = ']' :: rest := by
  cases cs with
  | nil => cases h
  | cons c cs =>
    rw [scanClosing] at h
    by_cases hc : c = ']'
    · rw [if_pos hc] at h
      rw [hc, Except.ok.inj h]
    · rw [if_neg hc] at h
      cases h

theorem scanAttribute_split {a : Attribute} (h : scanAttribute cs = .ok (a, rest)) :
    ∃ text, AttributeText ('[' :: text) a ∧ cs = text ++ rest := by
  obtain ⟨name, value, cs₁, cs₂, hname, hvalue, hclosing, hasks⟩ := scanAttribute_eq_ok h
  obtain ⟨before, hbefore, hcs⟩ := exists_blanks cs
  obtain ⟨after, hafter, hcs₁⟩ := exists_blanks cs₁
  obtain ⟨text, htext, hsplit⟩ := scanOptionalValue_split hvalue
  refine ⟨_, .brackets hbefore hafter htext (attributeOf_eq_ok_iff.mp hasks), ?_⟩
  rw [hcs, scanAttributeName_split hname, hcs₁, hsplit, scanClosing_split hclosing]
  simp

theorem scanAttributes_split {as : List Attribute} (h : scanAttributes cs = .ok (as, rest)) :
    ∃ text, AttributesText text as ∧ cs = text ++ rest := by
  fun_induction scanAttributes cs generalizing as rest with
  | case1 cs e found => cases h
  | case2 cs a rest' found ih =>
    obtain ⟨⟨as, rest⟩, htail, h⟩ := exists_of_bind_eq_ok h
    cases h
    obtain ⟨text, htext, hsplit⟩ := scanAttribute_split found
    obtain ⟨more, hmore, hsplit'⟩ := ih htail
    exact ⟨_, .cons htext hmore, by simp [hsplit, hsplit']⟩
  | case3 cs =>
    cases h
    exact ⟨[], .nil, rfl⟩

theorem ne_nil_of_scanAttributes {as : List Attribute}
    (h : scanAttributes ('[' :: cs) = .ok (as, rest)) : as ≠ [] := by
  rw [scanAttributes] at h
  split at h
  · cases h
  · obtain ⟨⟨as, rest'⟩, -, h⟩ := exists_of_bind_eq_ok h
    cases h
    exact List.cons_ne_nil _ _

theorem scanCompound_split {c : Compound} (h : scanCompound cs = .ok (c, rest)) :
    ∃ text, CompoundText text c ∧ cs = text ++ rest := by
  obtain ⟨⟨kind, cs'⟩, hkind, h⟩ := exists_of_bind_eq_ok h
  obtain ⟨⟨as, rest'⟩, has, h⟩ := exists_of_bind_eq_ok h
  cases h
  obtain ⟨text, htext, hsplit⟩ := scanAttributes_split has
  cases cs with
  | nil => cases hkind
  | cons d cs =>
    rw [scanKind] at hkind
    by_cases hstar : d = '*'
    · rw [if_pos hstar] at hkind
      cases hkind
      exact ⟨_, .star htext, by rw [hstar, hsplit, List.cons_append]⟩
    rw [if_neg hstar] at hkind
    by_cases hopen : d = '['
    · rw [if_pos hopen] at hkind
      cases hkind
      rw [hopen] at has hsplit ⊢
      exact ⟨text, .attributes htext (ne_nil_of_scanAttributes has), hsplit⟩
    rw [if_neg hopen] at hkind
    by_cases hstart : isWordStart d = true
    · rw [if_pos hstart] at hkind
      obtain ⟨word, rest₁, htaken⟩ : ∃ word rest₁, takeRun isWordChar (d :: cs) = (word, rest₁) :=
        ⟨_, _, rfl⟩
      rw [htaken] at hkind
      cases hname : Kind.ofName? word with
      | none =>
        simp only [hname] at hkind
        cases hkind
      | some k =>
        simp only [hname] at hkind
        cases hkind
        rw [Kind.ofName?_eq_some_iff] at hname
        refine ⟨_, .kind k htext, ?_⟩
        rw [(takeRun_split htaken).1, ← hname, hsplit, List.append_assoc]
    · rw [if_neg hstart] at hkind
      by_cases hclose : d = ']'
      · rw [if_pos hclose] at hkind
        cases hkind
      · rw [if_neg hclose] at hkind
        cases hkind

theorem scanCombinator_split {k : Combinator} (h : scanCombinator cs = .ok (some k, rest)) :
    ∃ text, CombinatorText text k ∧ cs = text ++ rest := by
  obtain ⟨before, hbefore, hcs⟩ := exists_blanks cs
  unfold scanCombinator at h
  split at h
  · cases h
  · rename_i c tail hdropped
    rw [hdropped] at hcs
    by_cases hc : c = '>'
    · rw [if_pos hc] at h
      cases h
      obtain ⟨after, hafter, htail⟩ := exists_blanks tail
      refine ⟨_, .child hbefore hafter, ?_⟩
      rw [List.append_assoc, List.cons_append, ← htail, ← hc, hcs]
    rw [if_neg hc] at h
    by_cases hclose : c = ']'
    · rw [if_pos hclose] at h
      cases h
    rw [if_neg hclose] at h
    by_cases hshorter : tail.length + 1 < cs.length
    · rw [if_pos hshorter] at h
      cases h
      refine ⟨before, .descendant hbefore ?_, hcs⟩
      rintro rfl
      rw [hcs] at hshorter
      exact Nat.lt_irrefl _ hshorter
    · rw [if_neg hshorter] at h
      cases h

theorem blanks_of_scanCombinator (h : scanCombinator cs = .ok (none, rest)) : Blanks cs := by
  obtain ⟨before, hbefore, hcs⟩ := exists_blanks cs
  unfold scanCombinator at h
  split at h
  · rename_i hdropped
    rw [hcs, hdropped, List.append_nil]
    exact hbefore
  · split at h
    · cases h
    · split at h
      · cases h
      · split at h <;> cases h

theorem scanRest_split {more : List (Combinator × Compound)} (h : scanRest cs = .ok more) :
    ∃ text after, RestText text more ∧ Blanks after ∧ cs = text ++ after := by
  fun_induction scanRest cs generalizing more with
  | case1 cs e hk => cases h
  | case2 cs next hk =>
    cases h
    exact ⟨[], cs, .nil, blanks_of_scanCombinator hk, rfl⟩
  | case3 cs k next hk e hc => cases h
  | case4 cs k next hk c rest hc ih =>
    obtain ⟨more, hmore, h⟩ := exists_of_bind_eq_ok h
    cases h
    obtain ⟨between, hbetween, hcs⟩ := scanCombinator_split hk
    obtain ⟨text, htext, hnext⟩ := scanCompound_split hc
    obtain ⟨texts, after, htexts, hafter, hrest⟩ := ih hmore
    exact ⟨_, after, .cons hbetween htext htexts, hafter, by simp [hcs, hnext, hrest]⟩

theorem selectorText_of_scan {s : Selector} (h : scan cs = .ok s) : SelectorText cs s := by
  obtain ⟨before, hbefore, hcs⟩ := exists_blanks cs
  unfold scan at h
  split at h
  · cases h
  · obtain ⟨⟨first, cs'⟩, hfirst, h⟩ := exists_of_bind_eq_ok h
    obtain ⟨more, hmore, h⟩ := exists_of_bind_eq_ok h
    cases h
    obtain ⟨text, htext, hsplit⟩ := scanCompound_split hfirst
    obtain ⟨texts, after, htexts, hafter, hrest⟩ := scanRest_split hmore
    have hchain := SelectorText.chain hbefore htext htexts hafter
    rw [hcs, hsplit, hrest]
    simpa using hchain

/-! ## A text of a part is read as that part -/

theorem ValueText.stops {text : List Char} {value : String} (h : ValueText text value)
    (rest : List Char) : Stops Text.isBlank (text ++ rest) := by
  cases h with
  | quoted hq hrun =>
    rintro c ⟨⟩
    rcases hq with rfl | rfl <;> decide
  | bare hc hcs =>
    rintro d ⟨⟩
    exact (hcs _ (List.mem_cons_self ..)).2

theorem scanValue_append {text : List Char} {value : String} (h : ValueText text value)
    (hrest : Stops (! endsBareValue ·) rest) :
    scanValue opened (text ++ rest) = .ok (value, rest) := by
  cases h with
  | @quoted q run hq hrun =>
    have htaken : takeRun (· != q) (run ++ q :: rest) = (String.ofList run, q :: rest) := by
      refine takeRun_append (fun c hc => ?_) ?_
      · rw [bne_iff_ne]
        rintro rfl
        exact hrun hc
      · rintro c ⟨⟩
        simp
    simp only [List.cons_append, List.append_assoc, List.nil_append, scanValue, if_pos hq, htaken]
  | @bare c cs hc hcs =>
    have haccepts : ∀ d ∈ c :: cs, (! endsBareValue d) = true := by
      intro d hd
      obtain ⟨hbracket, hblank⟩ := hcs d hd
      simp [endsBareValue, hbracket, hblank]
    have htaken := takeRun_append haccepts hrest
    have hends : ¬ endsBareValue c = true := by
      simpa using haccepts c (List.mem_cons_self ..)
    rw [List.cons_append] at htaken ⊢
    rw [scanValue, if_neg hc, if_neg hends, htaken]

theorem scanAttributeName_append {name : String} {value : Option String} {a : Attribute}
    (h : Asks name value a) (hrest : Stops isWordChar rest) :
    scanAttributeName opened (name.toList ++ rest) = .ok (name, rest) := by
  obtain ⟨c, cs, hname, hstart, hword⟩ := h.exists_toList
  rw [hname, List.cons_append, scanAttributeName, if_pos hstart, takeRun_word hname hword hrest]

theorem stops_blanks_append {accepts : Char → Bool} {blanks : List Char} (hblanks : Blanks blanks)
    (h : ∀ c, Text.isBlank c = true → accepts c = false) (hrest : Stops accepts rest) :
    Stops accepts (blanks ++ rest) := by
  cases blanks with
  | nil => exact hrest
  | cons c blanks =>
    rintro d ⟨⟩
    exact h c (hblanks c (List.mem_cons_self ..))

theorem scanOptionalValue_append {text : List Char} {value : Option String}
    (h : OptionalValueText text value) :
    scanOptionalValue opened (text ++ ']' :: rest) = .ok (value, ']' :: rest) := by
  cases h with
  | absent => rfl
  | @present before after cs value hbefore hvalue hafter =>
    have hstops : Stops (! endsBareValue ·) (after ++ ']' :: rest) := by
      refine stops_blanks_append hafter (fun c hc => by simp [endsBareValue, hc]) ?_
      rintro c ⟨⟩
      rfl
    have hclosing : Stops Text.isBlank (']' :: rest) := by
      rintro c ⟨⟩
      decide
    simp only [List.cons_append, List.append_assoc, scanOptionalValue,
      dropBlanks_append hbefore (hvalue.stops _), scanValue_append hvalue hstops, bind,
      Except.bind, dropBlanks_append hafter hclosing, pure, Except.pure]

theorem Asks.stops {name : String} {value : Option String} {a : Attribute} (h : Asks name value a)
    (rest : List Char) : Stops Text.isBlank (name.toList ++ rest) := by
  obtain ⟨c, cs, hname, hstart, -⟩ := h.exists_toList
  rw [hname]
  rintro d ⟨⟩
  exact isBlank_of_isWordStart hstart

theorem OptionalValueText.stops {text : List Char} {value : Option String}
    (h : OptionalValueText text value) (rest : List Char) {accepts : Char → Bool}
    (heq : accepts '=' = false) (hclose : accepts ']' = false) :
    Stops accepts (text ++ ']' :: rest) := by
  cases h <;> rintro c ⟨⟩ <;> assumption

theorem scanAttribute_append {text : List Char} {a : Attribute}
    (h : AttributeText ('[' :: text) a) : scanAttribute (text ++ rest) = .ok (a, rest) := by
  cases h with
  | @brackets before after cs name value _ hbefore hafter hvalue hasks =>
    have hword : Stops isWordChar (after ++ (cs ++ ']' :: rest)) :=
      stops_blanks_append hafter (fun _ => isWordChar_of_isBlank) (hvalue.stops rest rfl rfl)
    have hblank : Stops Text.isBlank (cs ++ ']' :: rest) := hvalue.stops rest rfl rfl
    simp only [List.append_assoc, List.cons_append, List.nil_append, scanAttribute,
      dropBlanks_append hbefore (hasks.stops _), scanAttributeName_append hasks hword,
      dropBlanks_append hafter hblank, scanOptionalValue_append hvalue, scanClosing,
      attributeOf_eq_ok_iff.mpr hasks, bind, Except.bind, pure, Except.pure, if_true]

theorem AttributesText.eq_nil_or {text : List Char} {as : List Attribute}
    (h : AttributesText text as) :
    (text = [] ∧ as = []) ∨ ∃ text', text = '[' :: text' := by
  cases h with
  | nil => exact .inl ⟨rfl, rfl⟩
  | cons h hs =>
    cases h
    exact .inr ⟨_, rfl⟩

theorem scanAttributes_append {text : List Char} {as : List Attribute}
    (h : AttributesText text as) (hrest : Stops (· == '[') rest) :
    scanAttributes (text ++ rest) = .ok (as, rest) := by
  induction h with
  | nil =>
    rw [List.nil_append, scanAttributes]
    rintro cs rfl
    exact absurd (hrest '[' rfl) (by decide)
  | @cons cs ds a as h hs ih =>
    cases h with
    | @brackets before after text name value _ hbefore hafter hvalue hasks =>
      have hhead : scanAttribute (before ++ name.toList ++ after ++ text ++ [']'] ++ (ds ++ rest)) =
          .ok (a, ds ++ rest) := scanAttribute_append (.brackets hbefore hafter hvalue hasks)
      rw [List.cons_append, List.cons_append, List.append_assoc, scanAttributes]
      split
      · rename_i hfound
        cases hhead.symm.trans hfound
      · rename_i hfound
        cases hhead.symm.trans hfound
        rw [ih]
        rfl

/-- What can follow a compound: nothing, a blank or a `>`. -/
def Follows (rest : List Char) : Prop :=
  ∀ c, rest.head? = some c → Text.isBlank c = true ∨ c = '>'

theorem Follows.stops_word (h : Follows rest) : Stops isWordChar rest := by
  intro c hc
  rcases h c hc with hblank | rfl
  · exact isWordChar_of_isBlank hblank
  · decide

theorem Follows.stops_bracket (h : Follows rest) : Stops (· == '[') rest := by
  intro c hc
  rcases h c hc with hblank | rfl
  · refine beq_eq_false_iff_ne.mpr ?_
    rintro rfl
    cases hblank
  · decide

theorem AttributesText.stops_word {text : List Char} {as : List Attribute}
    (h : AttributesText text as) (hrest : Stops isWordChar rest) :
    Stops isWordChar (text ++ rest) := by
  rcases h.eq_nil_or with ⟨rfl, -⟩ | ⟨text', rfl⟩
  · exact hrest
  · rintro c ⟨⟩
    decide

theorem scanKind_name (k : Kind) (hrest : Stops isWordChar rest) :
    scanKind (k.name.toList ++ rest) = .ok (some k, rest) := by
  obtain ⟨c, cs, hname, hstart, hword⟩ := exists_name_toList k
  have hstar : c ≠ '*' := ne_of_isWordStart hstart rfl
  have hbracket : c ≠ '[' := ne_of_isWordStart hstart rfl
  have htaken := takeRun_word hname hword hrest
  rw [hname, List.cons_append]
  simp only [scanKind, if_neg hstar, if_neg hbracket, if_pos hstart, htaken, Kind.ofName?_name]

theorem scanCompound_append {text : List Char} {c : Compound} (h : CompoundText text c)
    (hrest : Follows rest) : scanCompound (text ++ rest) = .ok (c, rest) := by
  cases h with
  | @kind k cs as has =>
    have hkind := scanKind_name k (has.stops_word hrest.stops_word)
    simp only [List.append_assoc, scanCompound, hkind,
      scanAttributes_append has hrest.stops_bracket, bind, Except.bind, pure, Except.pure]
  | @star cs as has =>
    have hkind : scanKind ('*' :: (cs ++ rest)) = .ok (none, cs ++ rest) := rfl
    simp only [List.cons_append, scanCompound, hkind,
      scanAttributes_append has hrest.stops_bracket, bind, Except.bind, pure, Except.pure]
  | @attributes _ as has hne =>
    rcases has.eq_nil_or with ⟨-, hnil⟩ | ⟨text', rfl⟩
    · exact absurd hnil hne
    · have hkind : scanKind ('[' :: text' ++ rest) = .ok (none, '[' :: text' ++ rest) := rfl
      simp only [scanCompound, hkind, scanAttributes_append has hrest.stops_bracket, bind,
        Except.bind, pure, Except.pure]

/-- A compound begins with a letter or an underscore, a star or a bracket. -/
theorem CompoundText.exists_cons {text : List Char} {c : Compound} (h : CompoundText text c) :
    ∃ d cs, text = d :: cs ∧ Text.isBlank d = false ∧ d ≠ '>' ∧ d ≠ ']' := by
  cases h with
  | kind k has =>
    obtain ⟨d, cs, hname, hstart, -⟩ := exists_name_toList k
    exact ⟨d, _, by rw [hname, List.cons_append], isBlank_of_isWordStart hstart,
      ne_of_isWordStart hstart rfl, ne_of_isWordStart hstart rfl⟩
  | star has => exact ⟨'*', _, rfl, by decide, by decide, by decide⟩
  | attributes has hne =>
    rcases has.eq_nil_or with ⟨-, hnil⟩ | ⟨text', rfl⟩
    · exact absurd hnil hne
    · exact ⟨'[', text', rfl, by decide, by decide, by decide⟩

theorem CompoundText.stops {text : List Char} {c : Compound} (h : CompoundText text c)
    (rest : List Char) : Stops Text.isBlank (text ++ rest) := by
  obtain ⟨d, cs, rfl, hblank, -⟩ := h.exists_cons
  rintro d' ⟨⟩
  exact hblank

theorem scanCombinator_append {between text : List Char} {k : Combinator} {c : Compound}
    (hk : CombinatorText between k) (hc : CompoundText text c) :
    scanCombinator (between ++ (text ++ rest)) = .ok (some k, text ++ rest) := by
  cases hk with
  | @child before after hbefore hafter =>
    have hstops : Stops Text.isBlank ('>' :: (after ++ (text ++ rest))) := by
      rintro d ⟨⟩
      decide
    rw [List.append_assoc, List.cons_append, scanCombinator, dropBlanks_append hbefore hstops]
    simp only [if_true, dropBlanks_append hafter (hc.stops rest)]
  | descendant hblanks hne =>
    have hdropped := dropBlanks_append hblanks (hc.stops rest)
    obtain ⟨d, cs, rfl, -, hd, hd'⟩ := hc.exists_cons
    have hpos := List.length_pos_iff.mpr hne
    have hshorter : (cs ++ rest).length + 1 < (between ++ (d :: cs ++ rest)).length := by
      simp only [List.length_append, List.length_cons]
      omega
    rw [scanCombinator, hdropped]
    simp only [List.cons_append, if_neg hd, if_neg hd'] at hshorter ⊢
    rw [if_pos hshorter]

theorem scanCombinator_blanks {after : List Char} (h : Blanks after) :
    scanCombinator after = .ok (none, []) := by
  have hend : Stops Text.isBlank [] := nofun
  have hdropped := dropBlanks_append h hend
  rw [List.append_nil] at hdropped
  rw [scanCombinator, hdropped]

theorem CombinatorText.follows {between : List Char} {k : Combinator}
    (h : CombinatorText between k) (rest : List Char) : Follows (between ++ rest) := by
  cases h with
  | @child before after hbefore hafter =>
    cases before with
    | nil =>
      rintro c ⟨⟩
      exact .inr rfl
    | cons d before =>
      rintro c ⟨⟩
      exact .inl (hbefore _ (List.mem_cons_self ..))
  | descendant hblanks hne =>
    obtain ⟨d, cs, rfl⟩ := List.exists_cons_of_ne_nil hne
    rintro c ⟨⟩
    exact .inl (hblanks _ (List.mem_cons_self ..))

/-- Behind a compound come blanks or the next combinator. -/
theorem RestText.follows {text after : List Char} {more : List (Combinator × Compound)}
    (h : RestText text more) (hafter : Blanks after) : Follows (text ++ after) := by
  cases h with
  | nil =>
    intro c hc
    exact .inl (hafter c (List.mem_of_mem_head? hc))
  | @cons between cs ds _ _ _ hk _ _ =>
    rw [List.append_assoc, List.append_assoc]
    exact hk.follows _

theorem scanRest_append {text after : List Char} {more : List (Combinator × Compound)}
    (h : RestText text more) (hafter : Blanks after) : scanRest (text ++ after) = .ok more := by
  induction h with
  | nil =>
    have hk := scanCombinator_blanks hafter
    rw [List.nil_append, scanRest]
    split
    · rename_i hfound
      cases hk.symm.trans hfound
    · rfl
    · rename_i hfound
      cases hk.symm.trans hfound
  | @cons between cs ds k c more hk hc h ih =>
    have hk' : scanCombinator (between ++ (cs ++ (ds ++ after))) =
        .ok (some k, cs ++ (ds ++ after)) := scanCombinator_append hk hc
    have hc' := scanCompound_append hc (h.follows hafter)
    rw [List.append_assoc, List.append_assoc, scanRest]
    split
    · rename_i hfound
      cases hk'.symm.trans hfound
    · rename_i hfound
      cases hk'.symm.trans hfound
    · rename_i hfound
      cases hk'.symm.trans hfound
      split
      · rename_i hfound'
        cases hc'.symm.trans hfound'
      · rename_i hfound'
        cases hc'.symm.trans hfound'
        rw [ih]
        rfl

theorem scan_of_selectorText {s : Selector} (h : SelectorText cs s) : scan cs = .ok s := by
  cases h with
  | @chain before text texts after c more hbefore hc h hafter =>
    have hdropped := dropBlanks_append hbefore (hc.stops (texts ++ after))
    have hfirst := scanCompound_append hc (h.follows hafter)
    rw [List.append_assoc, List.append_assoc, scan, hdropped]
    split
    · rename_i hnil
      obtain ⟨d, cs, rfl, -⟩ := hc.exists_cons
      cases hnil
    · rw [hfirst]
      simp only [bind, Except.bind, scanRest_append h hafter, pure, Except.pure]

/-- Reading accepts just the grammar and gives the selector of the derivation, which has one
combinator between any two neighbouring compounds. -/
theorem parse_eq_ok_iff (text : String) (s : Selector) :
    (parse text = .ok s ↔ SelectorText text.toList s) ∧
      s.compounds ≠ [] ∧ s.combinators.length + 1 = s.compounds.length := by
  refine ⟨?_, List.cons_ne_nil _ _, by simp [compounds, combinators]⟩
  constructor
  · intro h
    unfold parse at h
    cases hscan : scan text.toList with
    | error e =>
      rw [hscan] at h
      cases h
    | ok s' =>
      rw [hscan] at h
      cases h
      exact selectorText_of_scan hscan
  · intro h
    rw [parse, scan_of_selectorText h]
    rfl

end TypeErasure.Selector
