import Pagewright.Proofs.Template.Stretches

/-!
# Spans of bytes

A search reports what it finds by the bytes where it starts and where it ends. Such a report can be
read without the search: a word stands at a byte of a text (`Text.StandsAt`), the spans of a report
can be replaced, the text between them being copied (`Text.splice`), and what was cut out can be put
back (`Text.putBack`).

The values among the pieces of a text are reported in order and without overlap
(`Piece.pairwise_located`), each at the place of its piece (`Piece.mem_located_iff`). To rewrite
some of the pieces is to replace their spans and nothing else (`Piece.rewrite_eq_splice`), and
cutting some of them out loses nothing that the report does not hold (`Piece.putBack_located`).
-/

namespace Pagewright

namespace Text

/-! ## Places of a text -/

/-- The word stands in the text at byte `start`. -/
def StandsAt (text : Text) (start : Nat) (word : Text) : Prop :=
  ∃ front back, text = front ++ word ++ back ∧ front.byteSize = start

/-- The bytes from `start` up to `stop`. -/
def slice (text : Text) (start stop : Nat) : Text :=
  (text.dropBytes start).takeBytes (stop - start)

/-- The text behind byte `passed`, each of the spans replaced by the text that it is given with. -/
def splice (text : Text) : (passed : Nat) → (edits : List (Nat × Nat × Text)) → Text
  | passed, [] => text.dropBytes passed
  | passed, (start, stop, new) :: edits => text.slice passed start ++ new ++ text.splice stop edits

/-- The text in which words stood that were cut out of it, each given with the byte at which it
started. The first `passed` bytes of that text are left out. -/
def putBack : (passed : Nat) → (cut : List (Nat × Text)) → Text → Text
  | _, [], text => text
  | passed, (start, word) :: cut, text =>
    text.takeBytes (start - passed) ++ word
      ++ putBack (start + word.byteSize) cut (text.dropBytes (start - passed))

@[simp]
theorem dropBytes_zero (text : Text) : text.dropBytes 0 = text := by
  cases text <;> rfl

@[simp]
theorem dropBytes_append (front back : Text) : (front ++ back).dropBytes front.byteSize = back := by
  induction front with
  | nil => exact dropBytes_zero back
  | cons c front ih =>
    have hpos := c.utf8Size_pos
    obtain ⟨n, hn⟩ := Nat.exists_eq_add_of_le' (show 1 ≤ c.utf8Size + byteSize front by omega)
    rw [List.cons_append, byteSize_cons, hn, dropBytes,
      show n + 1 - c.utf8Size = byteSize front by omega, ih]

@[simp]
theorem takeBytes_append (front back : Text) :
    (front ++ back).takeBytes front.byteSize = front := by
  induction front with
  | nil =>
    cases back with
    | nil => rfl
    | cons c back => simp [takeBytes, Nat.not_le.2 c.utf8Size_pos]
  | cons c front ih =>
    rw [List.cons_append, byteSize_cons, takeBytes, if_pos (Nat.le_add_right _ _),
      Nat.add_sub_cancel_left, ih]

/-- A word is cut out between its two offsets. -/
theorem slice_append (front word back : Text) :
    (front ++ (word ++ back)).slice front.byteSize (front.byteSize + word.byteSize) = word := by
  rw [slice, dropBytes_append, Nat.add_sub_cancel_left, takeBytes_append]

theorem byteSize_pos {text : Text} (h : text ≠ []) : 0 < text.byteSize := by
  obtain ⟨c, rest, rfl⟩ := List.exists_cons_of_ne_nil h
  have := c.utf8Size_pos
  rw [byteSize_cons]
  omega

/-- A scan goes over a text by single characters and by what it recognises. -/
theorem pieces_induction {α : Type} {read : Text → Option (Piece α)} (hread : Faithful read)
    {motive : Text → Prop} (nil : motive [])
    (letter : ∀ c rest, read (c :: rest) = none → motive rest → motive (c :: rest))
    (found : ∀ piece rest, read (piece.source ++ rest) = some piece → motive rest →
      motive (piece.source ++ rest)) (text : Text) : motive text := by
  induction hlength : text.length using Nat.strong_induction_on generalizing text with
  | h n ih =>
    cases text with
    | nil => exact nil
    | cons c tail =>
      cases hc : read (c :: tail) with
      | none => exact letter c tail hc (ih _ (by simp [← hlength]) tail rfl)
      | some piece =>
        obtain ⟨hne, rest, hrest⟩ := hread _ _ hc
        have hpos := List.length_pos_iff.2 hne
        have hshorter : rest.length < n := by
          rw [← hlength, ← hrest, List.length_append]
          omega
        rw [← hrest] at hc ⊢
        exact found piece rest hc (ih _ hshorter rest rfl)

/-- Of two places of a text, the one with more bytes in front of it comes later. -/
theorem exists_append_of_byteSize_le {front back front' back' : Text}
    (h : front ++ back = front' ++ back') (hle : front.byteSize ≤ front'.byteSize) :
    ∃ between, front' = front ++ between ∧ back = between ++ back' := by
  rcases append_cases h with hinside | ⟨x, hx, rfl, -⟩
  · exact hinside
  · have := byteSize_pos hx
    rw [byteSize_append] at hle
    omega

/-- A piece of a text stands behind those before it and in front of those behind it. -/
theorem eq_append_of_pieces {α : Type} {read : Text → Option (Piece α)} (hread : Faithful read)
    {text : Text} {before after : List (Piece α)} {piece : Piece α}
    (h : text.pieces read = before ++ piece :: after) :
    text = Piece.sources before ++ (piece.source ++ Piece.sources after) := by
  rw [← Piece.sources_cons, ← Piece.sources_append, ← h, sources_pieces hread]

/-- A value was read where it stands. -/
theorem read_of_pieces {α : Type} {read : Text → Option (Piece α)} (hread : Faithful read)
    {text source : Text} {a : α} {before after : List (Piece α)}
    (h : text.pieces read = before ++ ⟨source, some a⟩ :: after) :
    read (source ++ Piece.sources after) = some ⟨source, some a⟩ := by
  obtain hfound | ⟨c, hc, -⟩ := read_or_letter hread h
  · exact hfound
  · cases congrArg Piece.value hc

end Text

/-! ## Places of pieces -/

namespace Piece

open Text

variable {α : Type}

/-- Further pieces are located behind the first ones. -/
theorem located_append (start : Nat) (first second : List (Piece α)) :
    located start (first ++ second)
      = located start first ++ located (start + (sources first).byteSize) second := by
  fun_induction located start first with
  | case1 start => simp
  | case2 start piece first stop a hvalue ih =>
    simp [located, hvalue, ih, stop, Nat.add_assoc]
  | case3 start piece first stop hvalue ih =>
    simp [located, hvalue, ih, stop, Nat.add_assoc]

theorem values_located (start : Nat) (pieces : List (Piece α)) :
    (located start pieces).map (·.2.2) = values pieces := by
  fun_induction located start pieces with
  | case1 => rfl
  | case2 start piece pieces stop a hvalue ih => simpa [values, hvalue] using ih
  | case3 start piece pieces stop hvalue ih => simpa [values, hvalue] using ih

/-- A value is reported at the place of its piece. -/
theorem mem_located_iff {base start stop : Nat} {a : α} {pieces : List (Piece α)} :
    (start, stop, a) ∈ located base pieces ↔
      ∃ before source after, pieces = before ++ ⟨source, some a⟩ :: after ∧
        start = base + (sources before).byteSize ∧ stop = start + source.byteSize := by
  constructor
  · intro h
    fun_induction located base pieces with
    | case1 => cases h
    | case2 base piece pieces end' b hvalue ih =>
      obtain hhead | htail := List.mem_cons.1 h
      · obtain ⟨rfl, rfl, rfl⟩ : start = base ∧ stop = end' ∧ a = b := by simpa using hhead
        exact ⟨[], piece.source, pieces, by rw [← hvalue]; rfl, rfl, rfl⟩
      · obtain ⟨before, source, after, rfl, hstart, hstop⟩ := ih htail
        exact ⟨piece :: before, source, after, rfl, by simp [hstart, end', Nat.add_assoc], hstop⟩
    | case3 base piece pieces end' hvalue ih =>
      obtain ⟨before, source, after, rfl, hstart, hstop⟩ := ih h
      exact ⟨piece :: before, source, after, rfl, by simp [hstart, end', Nat.add_assoc], hstop⟩
  · rintro ⟨before, source, after, rfl, rfl, rfl⟩
    rw [located_append]
    exact List.mem_append_right _ List.mem_cons_self

theorem le_of_mem_located {start : Nat} {pieces : List (Piece α)} {found : Nat × Nat × α}
    (h : found ∈ located start pieces) : start ≤ found.1 := by
  obtain ⟨before, source, after, -, hstart, -⟩ := mem_located_iff.1 h
  exact hstart ▸ Nat.le_add_right _ _

/-- What has been found is not empty. -/
theorem lt_of_mem_located {read : Text → Option (Piece α)} (hread : Faithful read) {start : Nat}
    {text : Text} {found : Nat × Nat × α} (h : found ∈ located start (text.pieces read)) :
    found.1 < found.2.1 := by
  obtain ⟨before, source, after, hpieces, -, hstop⟩ := mem_located_iff.1 h
  have hmem : (⟨source, some found.2.2⟩ : Piece α) ∈ text.pieces read := by
    rw [hpieces]
    exact List.mem_append_right _ List.mem_cons_self
  rw [hstop]
  exact Nat.lt_add_of_pos_right (byteSize_pos (source_ne_nil_of_pieces hread hmem))

/-- A value ends where the next one starts, or before. -/
theorem pairwise_located (start : Nat) (pieces : List (Piece α)) :
    (located start pieces).Pairwise fun a b => a.2.1 ≤ b.1 := by
  fun_induction located start pieces with
  | case1 => exact .nil
  | case2 start piece pieces stop a hvalue ih => exact .cons (fun _ => le_of_mem_located) ih
  | case3 start piece pieces stop hvalue ih => exact ih

/-- The values of a scan are reported by spans that hold a character at least, one after the
other. -/
theorem pairwise_located_pieces {read : Text → Option (Piece α)} (hread : Faithful read)
    (start : Nat) (text : Text) :
    (located start (text.pieces read)).Pairwise fun a b => a.1 < b.1 ∧ a.2.1 ≤ b.1 := by
  refine (pairwise_located start (text.pieces read)).imp_of_mem ?_
  intro a b ha _ hle
  exact ⟨(lt_of_mem_located hread ha).trans_le hle, hle⟩

/-- The value that is reported first ends first. -/
theorem stop_le_of_head? {read : Text → Option (Piece α)} (hread : Faithful read) {start : Nat}
    {text : Text} {first found : Nat × Nat × α}
    (hfirst : (located start (text.pieces read)).head? = some first)
    (hfound : found ∈ located start (text.pieces read)) : first.2.1 ≤ found.2.1 := by
  have hlt := lt_of_mem_located hread hfound
  have hordered := pairwise_located start (text.pieces read)
  obtain ⟨rest, hrest⟩ := List.head?_eq_some_iff.1 hfirst
  rw [hrest] at hfound hordered
  rcases List.mem_cons.1 hfound with rfl | htail
  · exact Nat.le_refl _
  · exact ((List.pairwise_cons.1 hordered).1 found htail).trans hlt.le

/-- A value that a scan reports was read where it is reported. -/
theorem exists_of_mem_located_pieces {read : Text → Option (Piece α)} (hread : Faithful read)
    {front rest : Text} {start stop : Nat} {a : α}
    (h : (start, stop, a) ∈ located front.byteSize (rest.pieces read)) :
    ∃ gap source back, rest = gap ++ (source ++ back) ∧ start = (front ++ gap).byteSize ∧
      stop = start + source.byteSize ∧ read (source ++ back) = some ⟨source, some a⟩ := by
  obtain ⟨before, source, after, hpieces, rfl, rfl⟩ := mem_located_iff.1 h
  exact ⟨sources before, source, sources after, eq_append_of_pieces hread hpieces,
    (byteSize_append _ _).symm, rfl, read_of_pieces hread hpieces⟩

/-- In front of the first value that is reported there is none, and the report goes on behind it. -/
theorem exists_of_located_cons {base start stop : Nat} {a : α} {pieces : List (Piece α)}
    {found : List (Nat × Nat × α)} (h : located base pieces = (start, stop, a) :: found) :
    ∃ skipped source after, pieces = skipped ++ ⟨source, some a⟩ :: after ∧
      values skipped = [] ∧ start = base + (sources skipped).byteSize ∧
      stop = start + source.byteSize ∧ found = located stop after := by
  fun_induction located base pieces with
  | case1 => cases h
  | case2 base piece pieces end' b hvalue ih =>
    obtain ⟨hhead, rfl⟩ := List.cons.inj h
    obtain ⟨rfl, rfl, rfl⟩ : base = start ∧ end' = stop ∧ b = a := by simpa using hhead
    exact ⟨[], piece.source, pieces, by rw [← hvalue]; rfl, rfl, rfl, rfl, rfl⟩
  | case3 base piece pieces end' hvalue ih =>
    obtain ⟨skipped, source, after, rfl, hnone, hstart, hstop, hfound⟩ := ih h
    refine ⟨piece :: skipped, source, after, rfl, ?_, ?_, hstop, hfound⟩
    · simpa [values, hvalue] using hnone
    · simp [hstart, end', Nat.add_assoc]

/-- Behind the first value that it reports a scan goes on as if the text started there. -/
theorem exists_of_located_pieces_cons {read : Text → Option (Piece α)} (hread : Faithful read)
    {front rest : Text} {start stop : Nat} {a : α} {found : List (Nat × Nat × α)}
    (h : located front.byteSize (rest.pieces read) = (start, stop, a) :: found) :
    ∃ gap source behind, rest = gap ++ source ++ behind ∧ start = (front ++ gap).byteSize ∧
      stop = (front ++ gap ++ source).byteSize ∧
      found = located (front ++ gap ++ source).byteSize (behind.pieces read) := by
  obtain ⟨skipped, source, after, hpieces, -, rfl, rfl, rfl⟩ := exists_of_located_cons h
  have hrest := eq_append_of_pieces hread hpieces
  have hafter : (sources after).pieces read = after :=
    pieces_eq_of_append hread (hpieces.trans (List.append_cons ..))
  refine ⟨sources skipped, source, sources after, ?_, ?_, ?_, ?_⟩
  · rw [hrest, List.append_assoc]
  · rw [byteSize_append]
  · rw [byteSize_append, byteSize_append]
  · rw [byteSize_append, byteSize_append, hafter]

/-- Where the last value of a report ends; `start` when there is none. -/
def lastStop (start : Nat) : List (Nat × Nat × α) → Nat
  | [] => start
  | x :: found => lastStop x.2.1 found

/-! ## Replacing spans -/

/-- The spans of the values that `f` has an answer for, with that answer. -/
def edits (f : α → Option Text) (found : List (Nat × Nat × α)) : List (Nat × Nat × Text) :=
  found.filterMap fun x => (f x.2.2).map fun new => (x.1, x.2.1, new)

variable {f : α → Option Text}

theorem rewritten_of_none {piece : Piece α} (h : piece.value.bind f = none) :
    rewritten f piece = piece.source := by
  rw [rewritten, h, Option.getD_none]

/-- The text behind the last span that was replaced is copied up to the next one: `gap` is what has
been passed over since. -/
theorem splice_located (front gap : Text) (pieces : List (Piece α)) :
    splice (front ++ gap ++ sources pieces) front.byteSize
        (edits f (located (front ++ gap).byteSize pieces))
      = gap ++ rewrite f pieces := by
  induction pieces generalizing front gap with
  | nil => simp [located, edits, splice, rewrite]
  | cons piece pieces ih =>
    have hpassed := ih front (gap ++ piece.source)
    rw [rewrite_cons, sources_cons]
    cases hvalue : piece.value with
    | none =>
      rw [rewritten_of_none (by simp [hvalue])]
      simpa [located, hvalue, Nat.add_assoc] using hpassed
    | some a =>
      cases hnew : f a with
      | none =>
        rw [rewritten_of_none (by simp [hvalue, hnew])]
        simpa [located, hvalue, edits, hnew, Nat.add_assoc] using hpassed
      | some new =>
        have hrewritten : rewritten f piece = new := by simp [rewritten, hvalue, hnew]
        have hedits : edits f (located (front ++ gap).byteSize (piece :: pieces)) =
            ((front ++ gap).byteSize, (front ++ gap ++ piece.source).byteSize, new)
              :: edits f (located (front ++ gap ++ piece.source).byteSize pieces) := by
          simp [located, hvalue, edits, hnew, Nat.add_assoc]
        have hslice : slice (front ++ gap ++ (piece.source ++ sources pieces)) front.byteSize
            (front ++ gap).byteSize = gap := by
          rw [List.append_assoc, byteSize_append, slice_append]
        have hnext := ih (front ++ gap ++ piece.source) []
        rw [List.append_nil, List.append_assoc _ piece.source, List.nil_append] at hnext
        rw [hedits, splice, hslice, hnext, hrewritten, List.append_assoc]

/-- To rewrite pieces is to replace the spans of the values that are accepted. -/
theorem rewrite_eq_splice (pieces : List (Piece α)) :
    rewrite f pieces = splice (sources pieces) 0 (edits f (located 0 pieces)) :=
  (splice_located [] [] pieces).symm

/-- There are no edits when every answer is missing. -/
theorem edits_eq_nil_iff {found : List (Nat × Nat × α)} :
    edits f found = [] ↔ ∀ start stop a, (start, stop, a) ∈ found → f a = none := by
  rw [edits, List.filterMap_eq_nil_iff]
  simp

/-- Nothing is rewritten when there are no edits. -/
theorem rewrite?_eq_none_iff {pieces : List (Piece α)} :
    rewrite? f pieces = none ↔ edits f (located 0 pieces) = [] := by
  rw [rewrite?, edits_eq_nil_iff, ← values_located 0]
  simp

theorem eq_rewrite_of_rewrite? {pieces : List (Piece α)} {new : Text}
    (h : rewrite? f pieces = some new) : new = rewrite f pieces := by
  rw [← getD_rewrite?, h, Option.getD_some]

/-- What is rewritten is the text with its edits made. -/
theorem eq_splice_of_rewrite? {pieces : List (Piece α)} {new : Text}
    (h : rewrite? f pieces = some new) :
    new = splice (sources pieces) 0 (edits f (located 0 pieces)) := by
  rw [← rewrite_eq_splice]
  exact eq_rewrite_of_rewrite? h

/-! ## Cutting spans out -/

/-- Cutting spans out is replacing them by nothing. -/
theorem edits_cut (p : α → Bool) (found : List (Nat × Nat × α)) :
    edits (fun a => if p a then some [] else none) found =
      (found.filter fun x => p x.2.2).map fun x => (x.1, x.2.1, []) := by
  induction found with
  | nil => rfl
  | cons x found ih =>
    cases hcut : p x.2.2 <;> simpa [edits, hcut] using ih

/-- What is cut out of a text can be put back, when it is known what was cut and where. -/
theorem putBack_located {spelled : α → Text} (p : α → Bool) (passed : Nat) (gap : Text)
    {pieces : List (Piece α)}
    (h : ∀ source a, ⟨source, some a⟩ ∈ pieces → source = spelled a) :
    putBack passed (((located (passed + gap.byteSize) pieces).filter fun x => p x.2.2).map
        fun x => (x.1, spelled x.2.2))
      (gap ++ rewrite (fun a => if p a then some [] else none) pieces) = gap ++ sources pieces := by
  induction pieces generalizing passed gap with
  | nil => simp [located, putBack, rewrite]
  | cons piece pieces ih =>
    have hrest : ∀ source a, ⟨source, some a⟩ ∈ pieces → source = spelled a :=
      fun source a hmem => h source a (List.mem_cons_of_mem _ hmem)
    have hpassed := ih passed (gap ++ piece.source) hrest
    rw [rewrite_cons, sources_cons]
    cases hvalue : piece.value with
    | none =>
      rw [rewritten_of_none (by simp [hvalue])]
      simpa [located, hvalue, Nat.add_assoc] using hpassed
    | some a =>
      cases hcut : p a with
      | false =>
        rw [rewritten_of_none (by simp [hvalue, hcut])]
        simpa [located, hvalue, hcut, Nat.add_assoc] using hpassed
      | true =>
        have hsource : piece.source = spelled a :=
          h _ _ (by rw [← hvalue]; exact List.mem_cons_self)
        have hnext := ih (passed + gap.byteSize + (spelled a).byteSize) [] hrest
        have hrewritten : rewritten (fun a => if p a then some [] else none) piece = [] := by
          simp [rewritten, hvalue, hcut]
        simp only [located, hvalue, List.filter_cons, hcut, if_true, List.map_cons, putBack]
        simp only [Nat.add_sub_cancel_left, hrewritten, List.nil_append, takeBytes_append,
          dropBytes_append, hsource]
        simpa using hnext

end Piece

end Pagewright
