/-
The printed syntax can be read in one way only: clean messages with the same
text are the same, up to what printing leaves out
(`Message.text_eq_iff_normal_eq`).

A message is clean when its names, styles and selectors hold none of the
characters that end them and its texts are told apart by what stands between
them. Texts are otherwise arbitrary. What printing leaves out is an empty
style, a zero offset and whether an identifier was a number (`normal`).

The proof goes through the tree once, comparing two messages with arbitrary
texts after them: what is printed for a node is never the beginning of what
is printed for another one, so both the nodes and what follows are the same.
-/
import IcuMessage.Print
import IcuMessage.Proofs.EscapedText

namespace IcuMessage

/-! ## What printing keeps -/

def ArgumentId.normal : ArgumentId → ArgumentId
  | .index position => .name (String.ofList (Decimal.natural position.toNat))
  | .name value => .name value

def Format.normalStyle : Option String → Option String
  | some style => if style.isEmpty then none else some style
  | none => none

def Format.normalOffset : Option Int64 → Option Int64
  | some offset => if offset = 0 then none else some offset
  | none => none

mutual

def Element.normal : Element → Element
  | .text value => .text value
  | .placeholder id => .placeholder id.normal
  | .argument id format => .argument id.normal format.normal

def Format.normal : Format → Format
  | .simple kind style => .simple kind (Format.normalStyle style)
  | .branching kind offset branches =>
    .branching kind (Format.normalOffset offset) (Branch.normalAll branches)

def Branch.normalAll : List Branch → List Branch
  | [] => []
  | ⟨selector, value⟩ :: rest => ⟨selector, Element.normalAll value⟩ :: Branch.normalAll rest

def Element.normalAll : List Element → List Element
  | [] => []
  | element :: rest => element.normal :: Element.normalAll rest

end

/-- The message without the differences that its text does not show. -/
def Message.normal (message : Message) : Message :=
  Element.normalAll message

/-! ## Clean messages -/

def Element.isText : Element → Bool
  | .text _ => true
  | .placeholder _ | .argument _ _ => false

/-- None of the characters occurs in the string. -/
def Avoids (s : String) (stops : List Char) : Prop :=
  ∀ c ∈ s.toList, c ∉ stops

def ArgumentId.Clean : ArgumentId → Prop
  | .index _ => True
  | .name value => Avoids value [',', '{', '}']

mutual

def Element.Clean : Element → Prop
  | .text value => value ≠ ""
  | .placeholder id => id.Clean
  | .argument id format => id.Clean ∧ format.Clean

def Format.Clean : Format → Prop
  | .simple _ style => ∀ s ∈ style, Avoids s ['{', '}']
  | .branching _ _ branches => Branch.CleanAll branches

def Branch.CleanAll : List Branch → Prop
  | [] => True
  | ⟨selector, value⟩ :: rest =>
    Avoids selector [' ', '{', '}'] ∧ Element.CleanAll value ∧ Branch.CleanAll rest

def Element.CleanAll : List Element → Prop
  | [] => True
  | element :: rest =>
    element.Clean ∧ (element.isText = true → ∀ next ∈ rest.head?, next.isText = false) ∧
      Element.CleanAll rest

end

/-- No text is empty or next to another one, and no name, style or selector holds a character
that ends it. -/
def Message.Clean (message : Message) : Prop :=
  Element.CleanAll message

/-! ## Delimiters -/

/-- What stands before the first of some characters is determined by the text. -/
theorem append_cons_inj {stops a b r s : List Char} {c d : Char} (ha : ∀ x ∈ a, x ∉ stops)
    (hb : ∀ x ∈ b, x ∉ stops) (hc : c ∈ stops) (hd : d ∈ stops) (h : a ++ c :: r = b ++ d :: s) :
    a = b ∧ c = d ∧ r = s := by
  induction a generalizing b with
  | nil =>
    cases b with
    | nil => simpa using h
    | cons y b =>
      simp only [List.nil_append, List.cons_append, List.cons.injEq] at h
      exact absurd (h.1 ▸ hc) (hb y (by simp))
  | cons x a ih =>
    cases b with
    | nil =>
      simp only [List.nil_append, List.cons_append, List.cons.injEq] at h
      exact absurd (h.1 ▸ hd) (ha x (by simp))
    | cons y b =>
      simp only [List.cons_append, List.cons.injEq] at h
      obtain ⟨rfl, ht⟩ := h
      obtain ⟨rfl, hcd, hrs⟩ := ih (fun z hz => ha z (by simp [hz]))
        (fun z hz => hb z (by simp [hz])) ht
      exact ⟨rfl, hcd, hrs⟩

theorem ArgumentId.text_eq_iff {i j : ArgumentId} : i.text = j.text ↔ i.normal = j.normal := by
  cases i <;> cases j <;>
    simp [ArgumentId.text, ArgumentId.normal, String.ext_iff]

theorem avoids_natural {n : Nat} {c : Char} {stops : List Char}
    (hc : c ∈ Decimal.natural n) (hs : ∀ d ∈ stops, d.isDigit = false) : c ∉ stops := by
  intro hm
  have hd := Decimal.isDigit_of_mem_natural hc
  rw [hs c hm] at hd
  cases hd

theorem ArgumentId.Clean.text {id : ArgumentId} (h : id.Clean) :
    ∀ c ∈ id.text, c ∉ [',', '{', '}'] := by
  cases id with
  | index position => exact fun c hc => avoids_natural hc (by simp)
  | name value => exact h

theorem ArgumentType.name_avoids (type : ArgumentType) :
    ∀ c ∈ type.name.toList, c ∉ [',', '{', '}'] := by
  rcases type with ⟨_ | _ | _⟩ | ⟨_ | _ | _⟩ <;> simp [ArgumentType.name]

/-! ## The parts of an argument -/

namespace Syntax

theorem styleClause_eq (style : Option String) :
    styleClause style = (Format.normalStyle style).elim [] fun s => ", ".toList ++ s.toList := by
  cases style with
  | none => rfl
  | some s => simp only [styleClause, Format.normalStyle]; split <;> rfl

theorem offsetClause_eq (offset : Option Int64) :
    offsetClause offset = (Format.normalOffset offset).elim [] fun n =>
      ", offset:".toList ++ Decimal.integer n.toInt := by
  cases offset with
  | none => rfl
  | some n => simp only [offsetClause, Format.normalOffset]; split <;> rfl

theorem styleClause_avoids {style : Option String} (h : ∀ s ∈ style, Avoids s ['{', '}']) :
    ∀ c ∈ styleClause style, c ∉ ['{', '}'] := by
  cases style with
  | none => simp [styleClause]
  | some s =>
    simp only [styleClause]
    split
    · simp
    · intro c hc
      simp only [List.mem_append] at hc
      rcases hc with hc | hc
      · revert c
        simp
      · exact h s rfl c hc

theorem styleClause_inj {s t : Option String} (h : styleClause s = styleClause t) :
    Format.normalStyle s = Format.normalStyle t := by
  rw [styleClause_eq, styleClause_eq] at h
  cases hs : Format.normalStyle s <;> cases ht : Format.normalStyle t <;>
    simp_all [String.ext_iff]

theorem integer_avoids_comma (n : Int) : ∀ c ∈ Decimal.integer n, c ∉ [','] := by
  intro c hc hm
  rw [List.mem_singleton] at hm
  subst hm
  exact absurd (Decimal.isDigit_of_mem_integer hc) (by decide)

/-- What follows the comma after an offset clause never looks like an offset itself. -/
def NoOffset (text : List Char) : Prop :=
  ∀ rest, text ≠ ' ' :: 'o' :: rest

theorem offsetClause_inj {n m : Option Int64} {r s : List Char} (hr : NoOffset r)
    (hs : NoOffset s) (h : offsetClause n ++ ',' :: r = offsetClause m ++ ',' :: s) :
    Format.normalOffset n = Format.normalOffset m ∧ r = s := by
  rw [offsetClause_eq, offsetClause_eq] at h
  cases hn : Format.normalOffset n with
  | none =>
    cases hm : Format.normalOffset m with
    | none => simpa [hn, hm] using h
    | some b =>
      simp [hn, hm] at h
      exact absurd h (hr _)
  | some a =>
    cases hm : Format.normalOffset m with
    | none =>
      simp [hn, hm] at h
      exact absurd h.symm (hs _)
    | some b =>
      simp only [hn, hm, Option.elim, List.append_assoc] at h
      obtain ⟨hab, -, hrs⟩ := append_cons_inj (integer_avoids_comma _) (integer_avoids_comma _)
        (by simp) (by simp) (List.append_cancel_left h)
      exact ⟨by rw [Int64.toInt_inj.mp (Decimal.integer_injective hab)], hrs⟩

/-! ## The parts of a branching format -/

/-- Printed branches, something standing before each. -/
def branchTexts (lead : List Char) : List Branch → List Char
  | [] => []
  | ⟨selector, value⟩ :: rest =>
    lead ++ branch selector (Element.printAll .compact value).text ++ branchTexts lead rest

/-- What stands before a branch and what ends the list tell apart whether one more branch comes. -/
def Apart (lead trail : List Char) : Prop :=
  ∀ {selector : String} (x y : List Char), Avoids selector [' ', '{', '}'] →
    lead ++ (selector.toList ++ ' ' :: x) ≠ trail ++ y

theorem apart_compact : Apart [] ['}'] := by
  intro selector x y hs h
  obtain ⟨-, hc, -⟩ := append_cons_inj (a := selector.toList) (b := []) hs (by simp) (by simp)
    (by simp) h
  exact absurd hc (by decide)

theorem apart_pretty : Apart "\n   ".toList ['\n', '}'] := by
  intro selector x y _ h
  simp at h

theorem branchTexts_eq_flatMap (lead : List Char) (bs : List Branch) :
    branchTexts lead bs = ((Branch.printAll bs).map Printed.text).flatMap (lead ++ ·) := by
  induction bs with
  | nil => rfl
  | cons b bs ih =>
    obtain ⟨selector, value⟩ := b
    simp only [branchTexts, Branch.printAll, List.map_cons, List.flatMap_cons, ih]

theorem append_intercalate {sep : List Char} (t : List Char) (ts : List (List Char)) :
    sep ++ List.intercalate sep (t :: ts) = (t :: ts).flatMap (sep ++ ·) := by
  induction ts generalizing t with
  | nil => simp
  | cons u us ih =>
    rw [List.intercalate_cons_cons, List.flatMap_cons, ← ih u]
    simp

theorem branches_compact (bs : List Branch) :
    branches .compact ((Branch.printAll bs).map Printed.text) = branchTexts [] bs := by
  simp only [branches, branchTexts_eq_flatMap, List.flatMap, List.nil_append, List.map_id']

theorem branches_pretty (b : Branch) (bs : List Branch) :
    branches .pretty ((Branch.printAll (b :: bs)).map Printed.text) =
      branchTexts "\n   ".toList (b :: bs) ++ ['\n'] := by
  obtain ⟨selector, value⟩ := b
  rw [branches, branchTexts_eq_flatMap, Branch.printAll, List.map_cons, append_intercalate]

theorem noOffset_branches (layout : Layout) {bs : List Branch} (h : Branch.CleanAll bs)
    (r : List Char) :
    NoOffset (branches layout ((Branch.printAll bs).map Printed.text) ++ '}' :: r) := by
  intro rest hr
  cases layout with
  | pretty => simp [branches] at hr
  | compact =>
    rw [branches_compact] at hr
    cases bs with
    | nil => simp [branchTexts] at hr
    | cons b bs =>
      obtain ⟨selector, value⟩ := b
      obtain ⟨hs, -⟩ := h
      simp only [branchTexts, branch, List.nil_append, List.append_assoc, List.cons_append] at hr
      obtain ⟨-, -, ho⟩ := append_cons_inj (b := []) hs (by simp) (by simp) (by simp) hr
      exact absurd (List.cons.inj ho).1 (by decide)

theorem branches_pretty_nil_ne (b : Branch) {bs : List Branch} (h : Branch.CleanAll (b :: bs))
    (r s : List Char) :
    branches .pretty ((Branch.printAll (b :: bs)).map Printed.text) ++ '}' :: r ≠
      branches .pretty [] ++ '}' :: s := by
  intro he
  obtain ⟨selector, value⟩ := b
  rw [branches_pretty] at he
  simp only [branchTexts, branch, branches, List.intercalate_nil, List.append_assoc] at he
  obtain ⟨-, hc, -⟩ := append_cons_inj (a := selector.toList) (b := ['\n']) h.1 (by simp) (by simp)
    (by simp) (List.append_cancel_left he)
  exact absurd hc (by decide)

/-- In either layout the branches of a format are read the same way. -/
theorem exists_apart (layout : Layout) {as bs : List Branch} {r s : List Char}
    (ha : Branch.CleanAll as) (hb : Branch.CleanAll bs)
    (h : branches layout ((Branch.printAll as).map Printed.text) ++ '}' :: r =
      branches layout ((Branch.printAll bs).map Printed.text) ++ '}' :: s) :
    ∃ lead trail, Apart lead trail ∧
      branchTexts lead as ++ (trail ++ r) = branchTexts lead bs ++ (trail ++ s) := by
  cases layout with
  | compact =>
    rw [branches_compact, branches_compact] at h
    exact ⟨_, _, apart_compact, h⟩
  | pretty =>
    refine ⟨_, _, apart_pretty, ?_⟩
    cases as with
    | nil =>
      cases bs with
      | nil => simpa using List.append_cancel_left h
      | cons b bs => exact absurd h.symm (branches_pretty_nil_ne b hb s r)
    | cons a as =>
      cases bs with
      | nil => exact absurd h (branches_pretty_nil_ne a ha r s)
      | cons b bs =>
        rw [branches_pretty, branches_pretty] at h
        simpa using h

end Syntax

/-- What is printed of a format after its type. -/
def Format.tail (layout : Layout) : Format → List Char
  | .simple _ style => Syntax.styleClause style ++ ['}']
  | .branching _ offset branches =>
    Syntax.offsetClause offset ++ ',' ::
      (Syntax.branches layout ((Branch.printAll branches).map Printed.text) ++ ['}'])

theorem Element.text_print_argument (layout : Layout) (id : ArgumentId) (format : Format) :
    ((Element.argument id format).print layout).text =
      '{' :: (id.text ++ ',' :: ' ' :: (format.type.name.toList ++ format.tail layout)) := by
  cases format <;> simp [Element.print, Syntax.simple, Syntax.branching, Format.tail, Format.type]

theorem Format.exists_tail_eq_cons (layout : Layout) (format : Format) :
    ∃ c rest, format.tail layout = c :: rest ∧ c ∈ [',', '{', '}'] := by
  cases format with
  | simple kind style =>
    rw [Format.tail, Syntax.styleClause_eq]
    cases Format.normalStyle style <;> simp
  | branching kind offset branches =>
    rw [Format.tail, Syntax.offsetClause_eq]
    cases Format.normalOffset offset <;> simp

theorem Format.type_readable (layout : Layout) {f g : Format} {r s : List Char}
    (h : f.type.name.toList ++ (f.tail layout ++ r) = g.type.name.toList ++ (g.tail layout ++ s)) :
    f.type = g.type ∧ f.tail layout ++ r = g.tail layout ++ s := by
  obtain ⟨c, x, hx, hc⟩ := f.exists_tail_eq_cons layout
  obtain ⟨d, y, hy, hd⟩ := g.exists_tail_eq_cons layout
  have ht : f.type = g.type := by
    rw [hx, hy] at h
    exact ArgumentType.name_injective (String.toList_inj.mp
      (append_cons_inj (ArgumentType.name_avoids _) (ArgumentType.name_avoids _) hc hd h).1)
  rw [ht] at h
  exact ⟨ht, List.append_cancel_left h⟩

/-! ## Texts between nodes -/

/-- The end of a message: nothing follows, or the brace that closes its branch. -/
def Closes (rest : List Char) : Prop :=
  ∀ c ∈ rest.head?, c = '}'

theorem Closes.nil : Closes [] := by simp [Closes]

theorem Closes.brace (rest : List Char) : Closes ('}' :: rest) := by simp [Closes]

theorem Element.eq_text {element : Element} (h : element.isText = true) :
    ∃ value, element = .text value := by
  cases element with
  | text value => exact ⟨value, rfl⟩
  | placeholder id => cases h
  | argument id format => cases h

theorem Element.exists_text_print_eq_cons (layout : Layout) {element : Element}
    (h : element.isText = false) : ∃ rest, (element.print layout).text = '{' :: rest := by
  cases element with
  | text value => simp [Element.isText] at h
  | placeholder id => exact ⟨_, rfl⟩
  | argument id format => exact ⟨_, Element.text_print_argument layout id format⟩

/-- A text ends where a message goes on without another one. -/
theorem Element.ends_printAll (layout : Layout) {es : List Element} {r : List Char}
    (h : ∀ next ∈ es.head?, next.isText = false) (hr : Closes r) :
    Escape.Ends ((Element.printAll layout es).text ++ r) := by
  cases es with
  | nil => exact fun c hc => .inr (hr c hc)
  | cons e es =>
    obtain ⟨rest, he⟩ := Element.exists_text_print_eq_cons layout (h e rfl)
    simp only [Element.printAll, Printed.text_append, he, List.cons_append]
    exact Escape.Ends.open _

theorem Closes.ends {r : List Char} (h : Closes r) : Escape.Ends r :=
  fun c hc => .inr (h c hc)

theorem Element.ends_text_print (layout : Layout) {element : Element}
    (h : element.isText = false) (r : List Char) :
    Escape.Ends ((element.print layout).text ++ r) := by
  obtain ⟨rest, he⟩ := Element.exists_text_print_eq_cons layout h
  rw [he]
  exact Escape.Ends.open _

/-- A text that is not empty is no end of a text. -/
theorem escape_append_ne {v : String} {r s : List Char} (hv : v ≠ "") (hr : Escape.Ends r)
    (hs : Escape.Ends s) : Escape.escape v.toList ++ r ≠ s := by
  intro h
  obtain ⟨he, -⟩ := Escape.escape_append_inj (w := []) hr hs h
  exact hv (String.toList_eq_nil_iff.mp he)

/-- The end of a message is told from one more element. -/
theorem Element.printAll_ne {layout : Layout} {e : Element} {es : List Element} {r s : List Char}
    (he : Element.CleanAll (e :: es)) (hr : Closes r) (hs : Closes s) :
    (Element.printAll layout (e :: es)).text ++ r ≠ s := by
  intro h
  obtain ⟨hc, ht, -⟩ := he
  rw [Element.printAll, Printed.text_append, List.append_assoc] at h
  cases hte : e.isText with
  | true =>
    obtain ⟨v, rfl⟩ := Element.eq_text hte
    exact escape_append_ne hc (Element.ends_printAll layout (ht rfl) hr) hs.ends h
  | false =>
    obtain ⟨rest, hb⟩ := Element.exists_text_print_eq_cons layout hte
    rw [hb] at h
    exact absurd (hs '{' (by rw [← h]; rfl)) (by decide)

/-! ## The tree -/

mutual

theorem Element.readable (layout : Layout) : ∀ (a b : Element) {r s : List Char},
    a.Clean → b.Clean → a.isText = false → b.isText = false →
    (a.print layout).text ++ r = (b.print layout).text ++ s → a.normal = b.normal ∧ r = s
  | .text _, _, _, _, _, _, ht, _, _ | _, .text _, _, _, _, _, _, ht, _ => by
    simp [Element.isText] at ht
  | .placeholder i, .placeholder j, r, s, hi, hj, _, _, h => by
    simp only [Element.print, Printed.ofText, Syntax.placeholder, List.cons_append,
      List.append_assoc, List.cons.injEq, true_and, List.nil_append] at h
    obtain ⟨hij, -, hrs⟩ := append_cons_inj (ArgumentId.Clean.text hi) (ArgumentId.Clean.text hj)
      (by simp) (by simp) h
    exact ⟨by rw [Element.normal, Element.normal, ArgumentId.text_eq_iff.mp hij], hrs⟩
  | .placeholder i, .argument j g, r, s, hi, hj, _, _, h => by
    rw [Element.text_print_argument] at h
    simp only [Element.print, Printed.ofText, Syntax.placeholder, List.cons_append,
      List.append_assoc, List.cons.injEq, true_and, List.nil_append] at h
    obtain ⟨-, hc, -⟩ := append_cons_inj (ArgumentId.Clean.text hi) (ArgumentId.Clean.text hj.1)
      (by simp) (by simp) h
    exact absurd hc (by decide)
  | .argument i f, .placeholder j, r, s, hi, hj, _, _, h => by
    rw [Element.text_print_argument] at h
    simp only [Element.print, Printed.ofText, Syntax.placeholder, List.cons_append,
      List.append_assoc, List.cons.injEq, true_and, List.nil_append] at h
    obtain ⟨-, hc, -⟩ := append_cons_inj (ArgumentId.Clean.text hi.1) (ArgumentId.Clean.text hj)
      (by simp) (by simp) h
    exact absurd hc (by decide)
  | .argument i f, .argument j g, r, s, hi, hj, _, _, h => by
    rw [Element.text_print_argument, Element.text_print_argument] at h
    simp only [List.cons_append, List.append_assoc, List.cons.injEq, true_and] at h
    obtain ⟨hij, -, hfg⟩ := append_cons_inj (ArgumentId.Clean.text hi.1)
      (ArgumentId.Clean.text hj.1) (by simp) (by simp) h
    obtain ⟨htype, htail⟩ := Format.type_readable layout (List.cons.inj hfg).2
    obtain ⟨hn, hrs⟩ := Format.readable layout f g hi.2 hj.2 htype htail
    exact ⟨by rw [Element.normal, Element.normal, ArgumentId.text_eq_iff.mp hij, hn], hrs⟩
termination_by structural a => a

/-- What follows the type of a format decides the rest of it. -/
theorem Format.readable (layout : Layout) : ∀ (f g : Format) {r s : List Char},
    f.Clean → g.Clean → f.type = g.type → f.tail layout ++ r = g.tail layout ++ s →
    f.normal = g.normal ∧ r = s
  | .simple _ _, .branching _ _ _, _, _, _, _, ht, _
  | .branching _ _ _, .simple _ _, _, _, _, _, ht, _ => by
    simp [Format.type] at ht
  | .simple kind style, .simple kind' style', r, s, hf, hg, ht, h => by
    simp only [Format.type, ArgumentType.simple.injEq] at ht
    simp only [Format.tail, List.append_assoc, List.cons_append, List.nil_append] at h
    obtain ⟨hst, -, hrs⟩ := append_cons_inj (Syntax.styleClause_avoids hf)
      (Syntax.styleClause_avoids hg) (by simp) (by simp) h
    exact ⟨by rw [Format.normal, Format.normal, ht, Syntax.styleClause_inj hst], hrs⟩
  | .branching kind offset as, .branching kind' offset' bs, r, s, hf, hg, ht, h => by
    simp only [Format.type, ArgumentType.branching.injEq] at ht
    simp only [Format.tail, List.append_assoc, List.cons_append, List.nil_append] at h
    obtain ⟨hn, hb⟩ := Syntax.offsetClause_inj (Syntax.noOffset_branches layout hf r)
      (Syntax.noOffset_branches layout hg s) h
    obtain ⟨lead, trail, hlt, hlines⟩ := Syntax.exists_apart layout hf hg hb
    obtain ⟨hbs, hrs⟩ := Branch.readable hlt as bs hf hg hlines
    exact ⟨by rw [Format.normal, Format.normal, ht, hn, hbs], hrs⟩
termination_by structural f => f

theorem Branch.readable {lead trail : List Char} (hlt : Syntax.Apart lead trail) :
    ∀ (as bs : List Branch) {r s : List Char}, Branch.CleanAll as → Branch.CleanAll bs →
      Syntax.branchTexts lead as ++ (trail ++ r) = Syntax.branchTexts lead bs ++ (trail ++ s) →
      Branch.normalAll as = Branch.normalAll bs ∧ r = s
  | [], [], r, s, _, _, h => by simpa [Syntax.branchTexts, Branch.normalAll] using h
  | [], ⟨t, w⟩ :: bs, r, s, _, hb, h => by
    simp only [Syntax.branchTexts, Syntax.branch, List.nil_append, List.append_assoc,
      List.cons_append] at h
    exact absurd h.symm (hlt _ _ hb.1)
  | ⟨t, v⟩ :: as, [], r, s, ha, _, h => by
    simp only [Syntax.branchTexts, Syntax.branch, List.nil_append, List.append_assoc,
      List.cons_append] at h
    exact absurd h (hlt _ _ ha.1)
  | ⟨t, v⟩ :: as, ⟨u, w⟩ :: bs, r, s, ha, hb, h => by
    obtain ⟨ht, hv, has⟩ := ha
    obtain ⟨hu, hw, hbs⟩ := hb
    simp only [Syntax.branchTexts, Syntax.branch, List.append_assoc, List.cons_append,
      List.nil_append] at h
    obtain ⟨htu, -, hvw⟩ := append_cons_inj ht hu (by simp) (by simp) (List.append_cancel_left h)
    obtain ⟨hn, hrest⟩ := Element.readableAll .compact v w hv hw (Closes.brace _) (Closes.brace _)
      (List.cons.inj hvw).2
    obtain ⟨hns, hrs⟩ := Branch.readable hlt as bs has hbs (List.cons.inj hrest).2
    exact ⟨by rw [Branch.normalAll, Branch.normalAll, String.toList_inj.mp htu, hn, hns], hrs⟩
termination_by structural as => as

theorem Element.readableAll (layout : Layout) : ∀ (es fs : List Element) {r s : List Char},
    Element.CleanAll es → Element.CleanAll fs → Closes r → Closes s →
    (Element.printAll layout es).text ++ r = (Element.printAll layout fs).text ++ s →
    Element.normalAll es = Element.normalAll fs ∧ r = s
  | [], [], r, s, _, _, _, _, h => by simpa [Element.printAll, Element.normalAll] using h
  | [], f :: fs, r, s, _, hf, hr, hs, h => absurd h.symm (Element.printAll_ne hf hs hr)
  | e :: es, [], r, s, he, _, hr, hs, h => absurd h (Element.printAll_ne he hr hs)
  | e :: es, f :: fs, r, s, ⟨he, hes, hes'⟩, ⟨hf, hfs, hfs'⟩, hr, hs, h => by
    simp only [Element.printAll, Printed.text_append, List.append_assoc] at h
    have hef : e.normal = f.normal ∧
        (Element.printAll layout es).text ++ r = (Element.printAll layout fs).text ++ s := by
      cases hte : e.isText with
      | true =>
        obtain ⟨v, rfl⟩ := Element.eq_text hte
        have hv := Element.ends_printAll layout (hes rfl) hr
        cases htf : f.isText with
        | true =>
          obtain ⟨w, rfl⟩ := Element.eq_text htf
          obtain ⟨hvw, hrest⟩ := Escape.escape_append_inj hv
            (Element.ends_printAll layout (hfs rfl) hs) h
          exact ⟨by rw [String.toList_inj.mp hvw], hrest⟩
        | false => exact absurd h (escape_append_ne he hv (Element.ends_text_print layout htf _))
      | false =>
        cases htf : f.isText with
        | true =>
          obtain ⟨w, rfl⟩ := Element.eq_text htf
          have hw := Element.ends_printAll layout (hfs rfl) hs
          exact absurd h.symm (escape_append_ne hf hw (Element.ends_text_print layout hte _))
        | false => exact Element.readable layout e f he hf hte htf h
    obtain ⟨hn, hrs⟩ := Element.readableAll layout es fs hes' hfs' hr hs hef.2
    exact ⟨by rw [Element.normalAll, Element.normalAll, hef.1, hn], hrs⟩
termination_by structural es => es

end

/-! ## What printing leaves out -/

theorem ArgumentId.text_normal (id : ArgumentId) : id.normal.text = id.text := by
  cases id <;> simp [ArgumentId.normal, ArgumentId.text]

theorem Format.type_normal (format : Format) : format.normal.type = format.type := by
  cases format <;> rfl

theorem Format.normalStyle_idem (style : Option String) :
    normalStyle (normalStyle style) = normalStyle style := by
  cases style with
  | none => rfl
  | some s => by_cases h : s.isEmpty = true <;> simp [normalStyle, h]

theorem Format.normalOffset_idem (offset : Option Int64) :
    normalOffset (normalOffset offset) = normalOffset offset := by
  cases offset with
  | none => rfl
  | some n => by_cases h : n = 0 <;> simp [normalOffset, h]

theorem Syntax.styleClause_normalStyle (style : Option String) :
    styleClause (Format.normalStyle style) = styleClause style := by
  rw [styleClause_eq, styleClause_eq, Format.normalStyle_idem]

theorem Syntax.offsetClause_normalOffset (offset : Option Int64) :
    offsetClause (Format.normalOffset offset) = offsetClause offset := by
  rw [offsetClause_eq, offsetClause_eq, Format.normalOffset_idem]

mutual

theorem Element.text_print_normal (layout : Layout) : ∀ element : Element,
    (element.normal.print layout).text = (element.print layout).text
  | .text _ => rfl
  | .placeholder id => by
    simp only [Element.normal, Element.print, Printed.ofText, Syntax.placeholder, id.text_normal]
  | .argument id format => by
    rw [Element.normal, Element.text_print_argument, Element.text_print_argument, id.text_normal,
      format.type_normal, Format.tail_normal layout format]

theorem Format.tail_normal (layout : Layout) : ∀ format : Format,
    format.normal.tail layout = format.tail layout
  | .simple _ style => by
    rw [Format.normal, Format.tail, Format.tail, Syntax.styleClause_normalStyle]
  | .branching _ offset branches => by
    rw [Format.normal, Format.tail, Format.tail, Syntax.offsetClause_normalOffset,
      Branch.texts_printAll_normal branches]

theorem Branch.texts_printAll_normal : ∀ branches : List Branch,
    (Branch.printAll (Branch.normalAll branches)).map Printed.text =
      (Branch.printAll branches).map Printed.text
  | [] => rfl
  | ⟨selector, value⟩ :: rest => by
    simp only [Branch.normalAll, Branch.printAll, List.map_cons,
      Element.text_printAll_normal .compact value, Branch.texts_printAll_normal rest]

theorem Element.text_printAll_normal (layout : Layout) : ∀ elements : List Element,
    (Element.printAll layout (Element.normalAll elements)).text =
      (Element.printAll layout elements).text
  | [] => rfl
  | element :: rest => by
    simp only [Element.normalAll, Element.printAll, Printed.text_append,
      Element.text_print_normal layout element, Element.text_printAll_normal layout rest]

end

/-- **Unique readability.** In either layout, clean messages have the same text exactly when they
differ at most in empty styles, zero offsets and the spelling of identifiers. -/
theorem Message.text_eq_iff_normal_eq (layout : Layout) {a b : Message} (ha : a.Clean)
    (hb : b.Clean) : a.text layout = b.text layout ↔ a.normal = b.normal := by
  simp only [Message.text, Message.print, String.ofList_inj]
  constructor
  · intro h
    exact (Element.readableAll layout a b ha hb Closes.nil Closes.nil (by simpa using h)).1
  · intro h
    rw [← Element.text_printAll_normal layout a, ← Element.text_printAll_normal layout b]
    exact congrArg (fun m => (Element.printAll layout m).text) h

/-- Two spellings of one message, with braces and a backslash in its texts and a selector that is
empty. -/
theorem Message.text_eq_iff_normal_eq_spellings :
    let a : Message := [.text "\\#\x7b\\", .argument (.index 7) (.branching .selectOrdinal (some 0)
      [⟨"one", [.text "\x7d", .placeholder (.name "a b")]⟩, ⟨"", [.argument (.name "x")
        (.simple .date (some ", short"))]⟩])]
    let b : Message := [.text "\\#\x7b\\", .argument (.name "7") (.branching .selectOrdinal none
      [⟨"one", [.text "\x7d", .placeholder (.name "a b")]⟩, ⟨"", [.argument (.name "x")
        (.simple .date (some ", short"))]⟩])]
    a.Clean ∧ b.Clean ∧ (a.text .pretty = b.text .pretty ↔ a.normal = b.normal) := by
  intro a b
  have ha : a.Clean := by
    simp [a, Message.Clean, Element.CleanAll, Element.Clean, Format.Clean, Branch.CleanAll,
      ArgumentId.Clean, Avoids, Element.isText]
  have hb : b.Clean := by
    simp [b, Message.Clean, Element.CleanAll, Element.Clean, Format.Clean, Branch.CleanAll,
      ArgumentId.Clean, Avoids, Element.isText]
  exact ⟨ha, hb, Message.text_eq_iff_normal_eq .pretty ha hb⟩

end IcuMessage
