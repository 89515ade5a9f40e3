import EnvScript.Proofs.Word.Leading
import EnvScript.Proofs.Word.Seam
import Mathlib.Data.List.TakeWhile

/-!
# The text of a word

`Word.Renders` relates a word to the texts it may be read from: each part stands for itself with its
marks around it, one part behind the other. Reading goes piece by piece, and what has been read so
far renders the drafts and the openings on the stack (`Assembly.Renders`).
-/

namespace EnvScript

def Parameter.text : Parameter → Text
  | .var name => name
  | .special symbol => symbol

def Operation.text : Operation → Text
  | .replace => ['/']
  | .replaceAll => ['/', '/']
  | .substring => [':']

mutual

/-- The texts of a part. An arithmetic expansion leaves out the character in front of its last
parenthesis, and an operation that is not evaluated its operand. -/
inductive Part.Renders : Part → Text → Prop
  | literal (t : Text) : Part.Renders (.literal t) t
  | colon : Part.Renders .colon [':']
  | glob (t : Text) : Part.Renders (.glob t) t
  | escaped (t : Text) : Part.Renders (.escaped t) ('\\' :: t)
  | single (t : Text) : Part.Renders (.single t) ('\'' :: (t ++ ['\'']))
  | double {w : List Part} {t : Text} (h : Word.Renders w t) :
      Part.Renders (.double w) ('"' :: (t ++ ['"']))
  | tilde (user : Option Text) : Part.Renders (.tilde user) ('~' :: user.getD [])
  | command (t : Text) : Part.Renders (.command t false) ('$' :: '(' :: (t ++ [')']))
  | backquoted (t : Text) : Part.Renders (.command t true) ('`' :: (t ++ ['`']))
  | parameter (p : Parameter) : Part.Renders (.parameter p) ('$' :: p.text)
  | braced (p : Parameter) : Part.Renders (.parameter p) ('$' :: '{' :: (p.text ++ ['}']))
  | substitution (p : Parameter) (op : Operation) {raw : List Part} {t : Text}
      (h : Word.Renders raw t) :
      Part.Renders (.substitution p op raw) ('$' :: '{' :: (p.text ++ op.text ++ t ++ ['}']))
  | specless (p : Parameter) (op : Operation) :
      Part.Renders (.specless p op) ('$' :: '{' :: (p.text ++ op.text ++ ['}']))
  | arithmetic (t : Text) (last : Char) :
      Part.Renders (.arithmetic t) ('$' :: '(' :: '(' :: (t ++ [last, ')']))
  | unsupported (p : Parameter) (operator : Text) {w : List Part} {t : Text}
      (h : Word.Renders w t) :
      Part.Renders (.unsupported p operator) ('$' :: '{' :: (p.text ++ operator ++ t ++ ['}']))
  | prefixed (p : Parameter) (operator : Text) {w : List Part} {t : Text}
      (h : Word.Renders w t) :
      Part.Renders (.unsupported p operator) ('$' :: '{' :: (operator ++ p.text ++ t ++ ['}']))

/-- The texts of the parts in order. -/
inductive Word.Renders : List Part → Text → Prop
  | nil : Word.Renders [] []
  | cons {p : Part} {w : List Part} {s t : Text} (hp : p.Renders s) (hw : Word.Renders w t) :
      Word.Renders (p :: w) (s ++ t)

end

/-- The texts that open a construct. -/
inductive Opening.Renders : Opening → Text → Prop
  | quote : Opening.Renders .quote ['"']
  | operand (p : Parameter) (op : Operation) :
      Opening.Renders (.operand p op) ('$' :: '{' :: (p.text ++ op.text))
  | ignored (p : Parameter) (operator : Text) :
      Opening.Renders (.ignored p operator) ('$' :: '{' :: (p.text ++ operator))
  | prefixed (p : Parameter) (operator : Text) :
      Opening.Renders (.ignored p operator) ('$' :: '{' :: (operator ++ p.text))

/-- The character that closes what is read at a place. -/
def Place.closer? : Place → Option Char
  | .word => none
  | .quote => some '"'
  | .operand => some '}'

inductive Piece.Renders (place : Place) : Piece → Text → Prop
  | plain (c : Char) : Piece.Renders place (.plain c) [c]
  | part {p : Part} {t : Text} (h : p.Renders t) : Piece.Renders place (.part p) t
  | opens {o : Opening} {t : Text} (h : o.Renders t) : Piece.Renders place (.opens o) t
  | closes {c : Char} (h : place.closer? = some c) : Piece.Renders place .closes [c]

/-! ## Words and drafts -/

theorem Word.Renders.append {v w : Word} {s t : Text} (hv : Word.Renders v s)
    (hw : Word.Renders w t) : Word.Renders (v ++ w) (s ++ t) := by
  induction v generalizing s with
  | nil =>
    cases hv
    exact hw
  | cons p v ih =>
    cases hv with
    | cons hp hv =>
      rw [List.append_assoc]
      exact .cons hp (ih hv)

theorem Part.Renders.single_word {p : Part} {t : Text} (h : p.Renders t) : Word.Renders [p] t := by
  simpa using Word.Renders.cons h .nil

theorem Opening.Renders.close {o : Opening} {w : Word} {s t : Text} {c : Char} (ho : o.Renders s)
    (hw : Word.Renders w t) (hc : o.place.closer? = some c) :
    (o.close w).Renders (s ++ t ++ [c]) := by
  cases ho with
  | quote =>
    obtain rfl := Option.some.inj hc
    exact .double hw
  | operand p op =>
    obtain rfl := Option.some.inj hc
    cases w with
    | nil =>
      cases hw
      simpa [Opening.close] using Part.Renders.specless p op
    | cons part w => simpa [Opening.close] using Part.Renders.substitution p op hw
  | ignored p operator =>
    obtain rfl := Option.some.inj hc
    simpa [Opening.close] using Part.Renders.unsupported p operator hw
  | prefixed p operator =>
    obtain rfl := Option.some.inj hc
    simpa [Opening.close] using Part.Renders.prefixed p operator hw

namespace Draft

/-- The text that a draft has been read from. -/
def Renders (d : Draft) (src : Text) : Prop :=
  ∃ t, Word.Renders d.parts.reverse t ∧ src = t ++ d.text.reverse

variable {d : Draft} {src t : Text}

theorem renders_empty : Draft.Renders {} [] := ⟨[], .nil, rfl⟩

theorem Renders.addText (h : d.Renders src) (c : Char) : (d.addText c).Renders (src ++ [c]) := by
  obtain ⟨t, ht, rfl⟩ := h
  refine ⟨t, ht, ?_⟩
  show _ = t ++ (c :: d.text).reverse
  rw [List.reverse_cons, List.append_assoc]

theorem Renders.word (h : d.Renders src) : Word.Renders d.word src := by
  obtain ⟨parts, text⟩ := d
  obtain ⟨t, ht, rfl⟩ := h
  cases text with
  | nil =>
    rw [List.reverse_nil, List.append_nil]
    exact ht
  | cons c text =>
    show Word.Renders (.literal (c :: text).reverse :: parts).reverse _
    rw [List.reverse_cons]
    exact ht.append (Part.Renders.literal _).single_word

theorem Renders.addPart {p : Part} (h : d.Renders src) (hp : p.Renders t) :
    (d.addPart p).Renders (src ++ t) := by
  refine ⟨src ++ t, ?_, (List.append_nil _).symm⟩
  show Word.Renders (p :: d.closed).reverse _
  rw [List.reverse_cons]
  exact h.word.append hp.single_word

end Draft

/-! ## Words in the making -/

/-- The text in front of the innermost draft. -/
inductive Stacked : List Suspended → Text → Prop
  | nil : Stacked [] []
  | cons {s : Suspended} {stack : List Suspended} {below outer opening : Text}
      (h : Stacked stack below) (houter : s.outer.Renders outer)
      (hopening : s.opening.Renders opening) : Stacked (s :: stack) (below ++ outer ++ opening)

def Assembly.Renders (a : Assembly) (src : Text) : Prop :=
  ∃ below t, Stacked a.stack below ∧ a.draft.Renders t ∧ src = below ++ t

theorem Assembly.renders_empty : Assembly.Renders {} [] :=
  ⟨[], [], .nil, Draft.renders_empty, rfl⟩

/-- One piece more puts its text behind what has been read. -/
theorem Assembly.Renders.add {a : Assembly} {src t : Text} {piece : Piece} (h : a.Renders src)
    (hpiece : piece.Renders a.place t) (p : Position) : (a.add p piece).Renders (src ++ t) := by
  obtain ⟨below, u, hstack, hdraft, rfl⟩ := h
  rw [List.append_assoc]
  cases hpiece with
  | plain c => exact ⟨below, u ++ [c], hstack, hdraft.addText c, rfl⟩
  | part hpart => exact ⟨below, u ++ t, hstack, hdraft.addPart hpart, rfl⟩
  | opens ho => exact ⟨below ++ u ++ t, [], .cons hstack hdraft ho, Draft.renders_empty, by simp⟩
  | @closes c hc =>
    obtain ⟨draft, stack⟩ := a
    cases hstack with
    | nil => exact absurd hc (by simp [Assembly.place, Place.closer?])
    | @cons s stack below outer opening hstack houter hopening =>
      -- The construct that is closed takes its text from the stack into the draft outside of it.
      have hpart := hopening.close hdraft.word hc
      exact ⟨below, outer ++ (opening ++ u ++ [c]), hstack, houter.addPart hpart, by simp⟩

theorem Assembly.Renders.word {a : Assembly} {src : Text} (h : a.Renders src)
    (hstack : a.stack = []) : Word.Renders a.draft.word src := by
  obtain ⟨below, t, hbelow, hdraft, rfl⟩ := h
  rw [hstack] at hbelow
  cases hbelow
  exact hdraft.word

/-! ## Readings -/

/-- Where `front` stands before `t`, a piece that is read renders `front` and the characters of `t`
it takes. -/
def Reading.Renders (r : Reading) (place : Place) (front t : Text) : Prop :=
  ∀ piece n, r = .ok (piece, n) → piece.Renders place (front ++ t.take n)

section

variable {place : Place} {front t : Text} {n : Nat}

theorem renders_taking {k : Nat} {p : Piece} (h : p.Renders place (front ++ t.take k)) :
    (Reading.taking k p).Renders place front t := by
  intro piece n hr
  obtain ⟨rfl, rfl⟩ := Prod.mk.inj (Except.ok.inj hr)
  exact h

theorem renders_plain (c : Char) (t : Text) :
    (Reading.taking 0 (.plain c)).Renders place [c] t := renders_taking (.plain c)

theorem renders_error (flaw : Flaw) : Reading.Renders (.error flaw) place front t :=
  fun _ _ h => absurd h (by simp)

theorem Reading.Renders.shift {r : Reading} {k : Nat}
    (h : r.Renders place (front ++ t.take k) (t.drop k)) : (r.shift k).Renders place front t := by
  intro piece n hr
  obtain ⟨m, hm, rfl⟩ := Reading.shift_eq_ok hr
  rw [Nat.add_comm, List.take_add, ← List.append_assoc]
  exact h piece m hm

/-! ## What closes a text -/

theorem take_succ_of_getElem? {c : Char} (h : t[n]? = some c) :
    t.take (n + 1) = t.take n ++ [c] := by
  rw [List.take_add_one, h]
  rfl

theorem getElem?_takeWhile_ne {c : Char} (h : (t.takeWhile (· != c)).length < t.length) :
    t[(t.takeWhile (· != c)).length]? = some c := by
  have happend := List.takeWhile_append_dropWhile (p := (· != c)) (l := t)
  have hnot := List.head?_dropWhile_not (· != c) t
  have hrest : t[(t.takeWhile (· != c)).length]? = (t.dropWhile (· != c)).head? := by
    conv => lhs; arg 1; rw [← happend]
    rw [List.getElem?_append_right (Nat.le_refl _), Nat.sub_self, List.head?_eq_getElem?]
  rw [hrest]
  cases hd : (t.dropWhile (· != c)).head? with
  | none =>
    rw [List.head?_eq_none_iff.mp hd, List.append_nil] at happend
    rw [happend] at h
    exact absurd h (Nat.lt_irrefl _)
  | some d =>
    rw [hd] at hnot
    simpa using hnot

/-! ## Readers -/

theorem take_leadingName (t : Text) : t.take (leadingName t).length = leadingName t :=
  (List.prefix_iff_eq_take.mp ⟨_, leadingName_append_drop t⟩).symm

theorem take_leadingParameter? {p : Parameter} (h : leadingParameter? t = some (p, n)) :
    t.take n = p.text := by
  have hname := take_leadingName t
  unfold leadingParameter? at h
  cases hlead : leadingName t with
  | cons c name =>
    rw [hlead] at h hname
    obtain ⟨rfl, rfl⟩ := Prod.mk.inj (Option.some.inj h)
    exact hname
  | nil =>
    rw [hlead] at h
    cases t with
    | nil => exact absurd h (by simp)
    | cons c t =>
      dsimp only at h
      split at h
      · obtain ⟨rfl, rfl⟩ := Prod.mk.inj (Option.some.inj h)
        exact (List.prefix_iff_eq_take.mp (List.takeWhile_prefix _)).symm
      · split at h
        · obtain ⟨rfl, rfl⟩ := Prod.mk.inj (Option.some.inj h)
          rfl
        · exact absurd h (by simp)

theorem renders_readOperator (p : Parameter) (t : Text) :
    (readOperator p t).Renders place ('$' :: '{' :: p.text) t := by
  unfold readOperator
  split
  · exact renders_error _
  · exact renders_taking (.part (.braced p))
  · exact renders_taking (.opens (.operand p .replaceAll))
  · exact renders_taking (.opens (.operand p .replace))
  · split
    · exact renders_taking (.opens (.ignored p _))
    · exact renders_taking (.opens (.operand p .substring))
  · exact renders_taking (.opens (.operand p .substring))
  · rename_i c t _ _ _ _ _
    split
    · rename_i hdoubled
      have hhead : t.head? = some c := beq_iff_eq.mp (Bool.and_eq_true_iff.mp hdoubled).2
      obtain ⟨u, rfl⟩ := List.head?_eq_some_iff.mp hhead
      exact renders_taking (.opens (.ignored p [c, c]))
    · split
      · exact renders_taking (.opens (.ignored p [c]))
      · exact renders_error _

theorem renders_readBraced (t : Text) : (readBraced t).Renders place ['$', '{'] t := by
  unfold readBraced
  split
  · exact renders_error _
  · rename_i c t
    split
    · split
      · rename_i p n hparam
        refine renders_taking (.opens ?_)
        have htext : ['$', '{'] ++ (c :: t).take (n + 1) = '$' :: '{' :: ([c] ++ p.text) := by
          rw [List.take_succ_cons, take_leadingParameter? hparam]
          rfl
        exact htext ▸ .prefixed p [c]
      · exact Reading.Renders.shift (renders_error _)
    · split
      · rename_i p n hparam
        refine Reading.Renders.shift ?_
        rw [take_leadingParameter? hparam]
        exact renders_readOperator p _
      · exact renders_error _

theorem renders_readDollar (t : Text) : (readDollar t).Renders place ['$'] t := by
  unfold readDollar
  split
  · exact Reading.Renders.shift (renders_readBraced _)
  · rename_i t
    split
    · rename_i n hlength
      obtain ⟨m, rfl, hpos, hm⟩ := getElem?_arithmeticLength hlength
      obtain ⟨k, rfl⟩ := Nat.exists_eq_add_of_le' hpos
      obtain ⟨last, hlast⟩ : ∃ last, t[k]? = some last := by
        have hlt := (List.getElem?_eq_some_iff.mp hm).1
        exact ⟨_, List.getElem?_eq_getElem (Nat.lt_of_succ_lt hlt)⟩
      rw [Nat.zero_add]
      refine renders_taking (.part ?_)
      show Part.Renders (.arithmetic (t.take k)) ('$' :: '(' :: '(' :: t.take (k + 1 + 1))
      rw [take_succ_of_getElem? hm, take_succ_of_getElem? hlast, List.append_assoc]
      exact .arithmetic _ last
    · exact renders_error _
  · rename_i t _
    split
    · rename_i n hlength
      obtain ⟨m, rfl, hm⟩ := getElem?_commandLength hlength
      rw [Nat.zero_add]
      refine renders_taking (.part ?_)
      show Part.Renders _ ('$' :: '(' :: t.take (m + 1))
      rw [take_succ_of_getElem? hm]
      exact .command _
    · exact renders_error _
  · have hname := take_leadingName t
    split
    · rename_i hlead
      rw [hlead, List.length_cons] at hname
      refine renders_taking (.part ?_)
      rw [hname]
      exact .parameter (.var _)
    · split
      · exact renders_taking (.part (.parameter (.special _)))
      · exact renders_plain _ _
    · exact renders_plain _ _

theorem renders_readBackquote (t : Text) : (readBackquote t).Renders place ['`'] t := by
  unfold readBackquote
  split
  · rename_i n hlength
    obtain ⟨m, rfl, hm⟩ := getElem?_backquoteLength hlength
    rw [Nat.zero_add]
    refine renders_taking (.part ?_)
    rw [take_succ_of_getElem? hm]
    exact .backquoted _
  · exact renders_error _

theorem renders_readSingle (t : Text) : (readSingle t).Renders place ['\''] t := by
  unfold readSingle
  dsimp only
  split
  · rename_i hlength
    refine renders_taking (.part ?_)
    rw [take_succ_of_getElem? (getElem?_takeWhile_ne hlength),
      ← List.prefix_iff_eq_take.mp (List.takeWhile_prefix _)]
    exact .single _
  · exact renders_error _

theorem renders_readTilde (t : Text) : (readTilde t).Renders place ['~'] t := by
  refine renders_taking (.part ?_)
  rw [← List.prefix_iff_eq_take.mp (List.takeWhile_prefix _)]
  split
  · rename_i hempty
    rw [List.isEmpty_iff.mp hempty]
    exact .tilde none
  · exact .tilde (some _)

theorem renders_readQuoted (c : Char) (t : Text) : (readQuoted c t).Renders .quote [c] t := by
  unfold readQuoted
  split
  · rename_i hc
    subst hc
    exact renders_taking (.closes rfl)
  · split
    · rename_i hc
      subst hc
      split
      · split
        · exact renders_taking (.part (.escaped _))
        · exact renders_plain _ _
      · exact renders_plain _ _
    · exact renders_plain _ _

theorem renders_readUnquoted (c : Char) (t : Text) : (readUnquoted c t).Renders place [c] t := by
  unfold readUnquoted
  split
  · rename_i hc
    subst hc
    split
    · exact renders_taking (.part (.escaped _))
    · exact renders_plain _ _
  · split
    · rename_i hc
      exact hc ▸ renders_readSingle t
    · split
      · rename_i hc
        subst hc
        exact renders_taking (.opens .quote)
      · exact renders_plain _ _

theorem renders_readPiece (place : Place) (tilde : Bool) (c : Char) (t : Text) :
    (readPiece place tilde c t).Renders place [c] t := by
  unfold readPiece
  split
  · rename_i hc
    exact hc ▸ renders_readDollar t
  · split
    · rename_i hc
      exact hc ▸ renders_readBackquote t
    · split
      · exact renders_readQuoted c t
      · split
        · rename_i hc
          subst hc
          exact renders_taking (.closes rfl)
        · exact renders_readUnquoted c t
      · split
        · exact renders_taking (.part (.glob _))
        · split
          · rename_i hc
            subst hc
            exact renders_taking (.part .colon)
          · split
            · rename_i hc
              exact hc.1 ▸ renders_readTilde t
            · exact renders_readUnquoted c t

end

/-! ## Reading on -/

theorem readWord_renders {limit : Int} {base : Nat} {a : Assembly} {c after : Cursor} {w : Word}
    (h : readWord limit base a c = .ok (w, after)) (src : Text) (ha : a.Renders src) :
    ∃ n, after = c.advance n ∧ Word.Renders w (src ++ c.rest.take n) := by
  fun_induction readWord limit base a c generalizing src with
  | case1 a c hrest hstack =>
    obtain ⟨rfl, rfl⟩ := Prod.mk.inj (Except.ok.inj h)
    exact ⟨0, rfl, by simpa using ha.word hstack⟩
  | case2 => exact absurd h (by simp)
  | case3 a c x t hrest hbreak =>
    obtain ⟨rfl, rfl⟩ := Prod.mk.inj (Except.ok.inj h)
    have hstack := List.isEmpty_iff.mp (Bool.and_eq_true_iff.mp hbreak).1
    exact ⟨0, rfl, by simpa using ha.word hstack⟩
  | case4 => exact absurd h (by simp)
  | case5 a c depth x t hrest hbreak deeper hdeep piece n hpiece ih =>
    have hadd := ha.add (renders_readPiece _ _ _ _ _ _ hpiece) c.position
    obtain ⟨m, hafter, hw⟩ := ih h _ hadd
    refine ⟨n + 1 + m, by rw [hafter, Cursor.advance_advance], ?_⟩
    rw [Cursor.rest_advance, List.append_assoc] at hw
    rw [List.take_add, hrest, List.take_succ_cons]
    rw [hrest] at hw
    exact hw
  | case6 => exact absurd h (by simp)

end EnvScript
