import TerminalConfig.Directive
import TerminalConfig.Proofs.FixedText
import TerminalConfig.Proofs.Gap

/-! # Lookahead — how far a reader sees past what it reads

    `r.Peeks n a` says that where `r` reads `a`, at most the next `n` bytes
    have a say in it: whatever else follows, the reading is the same.  It is
    kept by sequencing, so every token reader, every list of tokens and every
    directive has it with two bytes: a marker of a comment is two bytes long,
    and nothing else looks further. -/

namespace TerminalConfig

/-! ## Equal beginnings -/

/-- The same text in front keeps beginnings equal, and makes more bytes equal. -/
theorem take_append_eq {s t : Bytes} {n : Nat} (h : s.take n = t.take n) (x : Bytes) :
    (x ++ s).take (x.length + n) = (x ++ t).take (x.length + n) := by
  rw [List.take_length_add_append, List.take_length_add_append, h]

theorem take_append_congr {s t : Bytes} {n : Nat} (h : s.take n = t.take n) (x : Bytes) :
    (x ++ s).take n = (x ++ t).take n :=
  take_eq_of_le (take_append_eq h x) (Nat.le_add_left n x.length)

/-- Texts that begin with the same byte have the same head. -/
theorem head?_eq_of_take {s t : Bytes} (h : s.take 1 = t.take 1) : s.head? = t.head? := by
  cases s <;> cases t <;> simp_all

/-- Where another text follows that begins with the same byte, the first byte
    is the same. -/
theorem cons_of_take {x t t' : Bytes} (ht : t.take 1 = t'.take 1) {b : UInt8} {r : Bytes}
    (hs : x ++ t = b :: r) : ∃ r', x ++ t' = b :: r' := by
  have hhead : (x ++ t').head? = some b := by
    have := head?_eq_of_take (take_append_congr ht x)
    rw [← this, hs]
    rfl
  exact List.head?_eq_some_iff.mp hhead

namespace Reader

variable {α β : Type} {n : Nat}

/-- Where `r` reads `a`, at most the next `n` bytes behind what it reads have a
    say in it. -/
def Peeks (n : Nat) (r : Reader α) (a : α) : Prop :=
  ∀ ⦃x t t' : Bytes⦄, r.run (x ++ t) = .ok (a, t) → t.take n = t'.take n →
    r.run (x ++ t') = .ok (a, t')

/-- What a reader has read stands in front of what it leaves. -/
theorem exists_read {r : Reader α} {s t : Bytes} {a : α} (h : r.run s = .ok (a, t)) :
    ∃ x, s = x ++ t := by
  obtain ⟨x, hx⟩ := r.rest_suffix h
  exact ⟨x, hx.symm⟩

/-- Something that is read behind it does not change that. -/
theorem Peeks.behind {r : Reader α} {a : α} (h : r.Peeks n a) {x y t t' : Bytes}
    (hrun : r.run (x ++ (y ++ t)) = .ok (a, y ++ t)) (ht : t.take n = t'.take n) :
    r.run (x ++ (y ++ t')) = .ok (a, y ++ t') :=
  h hrun (take_append_congr ht y)

theorem Peeks.mono {r : Reader α} {a : α} {m : Nat} (h : r.Peeks m a) (hm : m ≤ n) :
    r.Peeks n a :=
  fun _ _ _ hrun ht => h hrun (take_eq_of_le ht hm)

/-- A sequence peeks no further than its readers, the second one taken where it
    follows something that the first one reads. -/
theorem Peeks.bind_of_read {r : Reader α} {next : α → Reader β} {b : β} (h : ∀ a, r.Peeks n a)
    (h' : ∀ {a s t}, r.run s = .ok (a, t) → (next a).Peeks n b) : (r >>= next).Peeks n b := by
  intro x t t' hrun ht
  obtain ⟨a, u, hr, hn⟩ := run_bind_eq_ok.mp hrun
  have hnext := h' hr
  -- the first reader peeks into what the second one reads, or past it
  obtain ⟨y, rfl⟩ := exists_read hn
  obtain ⟨z, hz⟩ := exists_read hr
  rw [← List.append_assoc] at hz
  obtain rfl := List.append_cancel_right hz
  rw [List.append_assoc] at hr ⊢
  rw [run_bind_of_ok ((h a).behind hr ht)]
  exact hnext hn ht

/-- A sequence peeks no further than its readers. -/
theorem Peeks.bind {r : Reader α} {next : α → Reader β} {b : β} (h : ∀ a, r.Peeks n a)
    (h' : ∀ a, (next a).Peeks n b) : (r >>= next).Peeks n b :=
  Peeks.bind_of_read h fun _ => h' _

theorem peeks_pure (a b : α) : (Pure.pure a : Reader α).Peeks n b := by
  intro x t t' hrun _
  simp only [run_pure, Except.ok.injEq, Prod.mk.injEq] at hrun
  obtain ⟨rfl, hx⟩ := hrun
  obtain rfl := List.append_left_eq_self.mp hx
  rfl

theorem Peeks.map {r : Reader α} (f : α → β) {b : β} (h : ∀ a, r.Peeks n a) :
    (f <$> r).Peeks n b :=
  Peeks.bind h (fun a => peeks_pure (f a) b)

theorem peeks_fail (fault : Fault) (a : α) : (Reader.fail fault : Reader α).Peeks n a := by
  intro s s' t hrun
  cases hrun

theorem Peeks.fromStart {r : Reader (Except Fault α)} {a : α} (h : r.Peeks n (.ok a)) :
    (fromStart r).Peeks n a := by
  intro x t t' hrun ht
  exact run_fromStart_eq_ok.mpr (h (run_fromStart_eq_ok.mp hrun) ht)

/-- The same, for a text of which the first byte is known. -/
theorem Peeks.run_cons {r : Reader α} {a : α} (h : r.Peeks n a) {x t t' s s' : Bytes} {b : UInt8}
    (hs : x ++ t = b :: s) (hs' : x ++ t' = b :: s') (ht : t.take n = t'.take n)
    (hrun : r.run (b :: s) = .ok (a, t)) : r.run (b :: s') = .ok (a, t') := by
  rw [← hs] at hrun
  rw [← hs']
  exact h hrun ht

/-- A reader may be chosen by the text, as long as the choice stays. -/
theorem peeks_remaining_bind {next : Bytes → Reader β} {b : β}
    (h : ∀ ⦃x t t' : Bytes⦄, (next (x ++ t)).run (x ++ t) = .ok (b, t) → t.take n = t'.take n →
      (next (x ++ t')).run (x ++ t') = .ok (b, t')) : (remaining >>= next).Peeks n b :=
  h

theorem peeks_ahead (b : Option UInt8) : ahead.Peeks (n + 1) b := by
  intro x t t' hrun ht
  simp only [run_ahead, Except.ok.injEq, Prod.mk.injEq] at hrun
  obtain ⟨rfl, hx⟩ := hrun
  obtain rfl := List.append_left_eq_self.mp hx
  rw [List.nil_append, List.nil_append, run_ahead]
  rw [head?_eq_of_take (take_eq_of_le ht (Nat.le_add_left 1 n))]

theorem peeks_skipByte (u : Unit) : skipByte.Peeks (n + 1) u := by
  intro x t t' hrun ht
  cases x with
  | nil =>
      cases t with
      | nil =>
          cases t' with
          | nil => rfl
          | cons => cases ht
      | cons b t =>
          simp only [List.nil_append, run_skipByte_cons, Except.ok.injEq, Prod.mk.injEq] at hrun
          exact absurd (congrArg List.length hrun.2) (by simp)
  | cons b x =>
      simp only [List.cons_append, run_skipByte_cons, Except.ok.injEq, Prod.mk.injEq] at hrun
      obtain rfl := List.append_left_eq_self.mp hrun.2
      rfl

/-- A run of one class ends at the first byte that is not in it. -/
theorem peeks_takeWhile (p : UInt8 → Bool) (v : Bytes) : (takeWhile p).Peeks (n + 1) v := by
  intro x t t' hrun ht
  simp only [run_takeWhile, Except.ok.injEq, Prod.mk.injEq] at hrun
  obtain ⟨hv, hd⟩ := hrun
  have hx : v = x := by
    have := List.takeWhile_append_dropWhile (p := p) (l := x ++ t)
    rw [hv, hd] at this
    exact List.append_cancel_right this
  subst hx
  have hall : ∀ b ∈ v, p b := fun b hb => List.mem_takeWhile_imp (hv ▸ hb)
  have hstop : t'.head? = t.head? := (head?_eq_of_take (take_eq_of_le ht (by omega))).symm
  rw [List.dropWhile_append_of_pos hall, List.dropWhile_eq_self_iff] at hd
  rw [run_takeWhile, List.takeWhile_append_of_pos hall, List.dropWhile_append_of_pos hall]
  cases t' with
  | nil => simp
  | cons b t' =>
      cases t with
      | nil => cases hstop
      | cons c t =>
          obtain rfl := Option.some.inj hstop
          have hb : ¬ p b := hd (by simp)
          simp [hb]

/-- A gap is over where no marker of two bytes follows. -/
theorem peeks_gap (u : Unit) : gap.Peeks 2 u := by
  intro x t t' hrun ht
  rw [run_gap_eq_ok] at hrun ⊢
  cases t with
  | nil =>
      cases t' with
      | nil => exact hrun
      | cons => cases ht
  | cons a r =>
      -- the gap is closed, and two bytes tell that none starts behind it
      obtain ⟨w, hw, hgap⟩ := exists_closedGap hrun fun h => absurd h (List.cons_ne_nil a r)
      obtain rfl := List.append_cancel_right hw
      rw [skipGap_append hgap]
      exact (settled_of_skipGap hrun).congr ht

theorem run_skip_bind (jump : Bytes → Bytes) (h : ∀ s, jump s <:+ s) (next : Unit → Reader β)
    (s : Bytes) : (skip jump h >>= next).run s = (next ()).run (jump s) := rfl

/-! ## Numerals and escapes -/

theorem Peeks.lexeme {r : Reader α} {a : α} (h : ∀ a, r.Peeks 2 a) : (lexeme r).Peeks 2 a :=
  Peeks.bind h fun b => Peeks.bind (fun u => peeks_gap u) fun _ => peeks_pure b a

theorem peeks_numeral (radix : Radix) (k : Nat) : (numeral radix).Peeks (n + 1) k :=
  Peeks.fromStart (Peeks.bind (fun v => peeks_takeWhile _ v) fun _ => peeks_pure _ _)

/-- The mark of a base is two bytes long. -/
theorem ofMark_congr {s t : Bytes} (h : s.take 2 = t.take 2) : Radix.ofMark s = Radix.ofMark t := by
  match s, t, h with
  | [], [], _ => rfl
  | [_], [_], _ => rfl
  | a :: b :: r, c :: d :: u, h =>
      simp only [List.take_succ_cons, List.take_zero, List.cons.injEq, and_true] at h
      obtain ⟨rfl, rfl⟩ := h
      rfl

theorem peeks_radixMark (radix : Radix) : radixMark.Peeks 2 radix := by
  have body : ∀ r : Radix, Peeks 2
      (if r ≠ .decimal then do skipByte; skipByte; return r else return r) radix := by
    intro r
    split
    · exact Peeks.bind (fun u => peeks_skipByte u) fun _ =>
        Peeks.bind (fun u => peeks_skipByte u) fun _ => peeks_pure _ _
    · exact peeks_pure _ _
  refine peeks_remaining_bind ?_
  intro x t t' hrun ht
  have hmark : Radix.ofMark (x ++ t') = Radix.ofMark (x ++ t) :=
    ofMark_congr (take_append_congr ht x).symm
  rw [hmark]
  exact body _ hrun ht

theorem peeks_natural (k : Nat) : natural.Peeks 2 k := by
  refine Peeks.bind (fun b => peeks_ahead b) ?_
  intro b
  split
  · exact Peeks.lexeme fun k => Peeks.bind (fun radix => peeks_radixMark radix) fun radix =>
      peeks_numeral radix k
  · exact peeks_fail _ _

/-- The name behind a backslash ends where it ends, unless a longer name does:
    that is for the next byte to say. -/
theorem run_named_congr {x t t' : Bytes} {code : UInt8} {length : Nat}
    (h : namedEscape? (x ++ t) = some (code, length)) (hdrop : (x ++ t).drop length = t)
    (ht : t.take 1 = t'.take 1) :
    namedEscape? (x ++ t') = some (code, length) ∧ (x ++ t').drop length = t' := by
  obtain ⟨htwo, hle⟩ := length_namedEscape? h
  have hlen : x.length = length := by
    have := congrArg List.length hdrop
    rw [List.length_drop, List.length_append] at this
    rw [List.length_append] at hle
    omega
  subst hlen
  refine ⟨?_, List.drop_left⟩
  rw [← h]
  exact (namedEscape?_congr (take_eq_of_le (take_append_eq ht x) (by omega))).symm

/-- The byte behind a caret is part of the escape. -/
theorem run_caret_congr {x t t' r r' : Bytes} {b : UInt8} {c : CodePoint}
    (hs : x ++ t = b :: r) (hs' : x ++ t' = b :: r')
    (hrun : (match r.head?.bind controlEscape? with
      | some c => do
          skipByte
          skipByte
          return .ok c
      | none => return .error .invalidControlEscape : Reader (Except Fault CodePoint)).run (b :: r)
        = .ok (.ok c, t)) :
    ∃ d, r = d :: t ∧ r' = d :: t' ∧ controlEscape? d = some c := by
  cases hc : r.head?.bind controlEscape? with
  | none =>
      rw [hc] at hrun
      cases hrun
  | some c' =>
      rw [hc] at hrun
      obtain ⟨d, hhead, hd⟩ := Option.bind_eq_some_iff.mp hc
      obtain ⟨u, rfl⟩ := List.head?_eq_some_iff.mp hhead
      cases hrun
      obtain rfl : x = [b, d] := List.append_cancel_right hs
      exact ⟨d, rfl, (List.cons.inj hs').2.symm, hd⟩

/-- Most escapes are known by their first byte, and the others look no further
    than they are long: a longer name would have to be followed by its end. -/
theorem peeks_escapeBody (c : CodePoint) : escapeBody.Peeks 1 (.ok c) := by
  have numeric : ∀ radix, Peeks 1
      (do return numericEscape (← numeral radix)) (.ok c) :=
    fun radix => Peeks.bind (fun k => peeks_numeral radix k) fun _ => peeks_pure _ _
  have marked : ∀ radix, Peeks 1
      (do skipByte; return numericEscape (← numeral radix)) (.ok c) :=
    fun radix => Peeks.bind (fun u => peeks_skipByte u) fun _ => numeric radix
  refine peeks_remaining_bind ?_
  intro x t t' hrun ht
  cases hs : x ++ t with
  | nil =>
      rw [hs] at hrun
      cases hrun
  | cons b r =>
      obtain ⟨r', hs'⟩ := cons_of_take ht hs
      rw [hs] at hrun
      rw [hs']
      simp only at hrun ⊢
      cases hsimple : simpleEscape? b with
      | some c' =>
          simp only [hsimple] at hrun ⊢
          exact Peeks.run_cons (Peeks.bind (fun u => peeks_skipByte u) fun _ => peeks_pure _ _)
            hs hs' ht hrun
      | none =>
          simp only [hsimple] at hrun ⊢
          by_cases hd : isDigit b
          · rw [if_pos hd] at hrun ⊢
            exact (numeric .decimal).run_cons hs hs' ht hrun
          rw [if_neg hd] at hrun ⊢
          by_cases ho : b == ascii 'o'
          · rw [if_pos ho] at hrun ⊢
            exact (marked .octal).run_cons hs hs' ht hrun
          rw [if_neg ho] at hrun ⊢
          by_cases hx : b == ascii 'x'
          · rw [if_pos hx] at hrun ⊢
            exact (marked .hexadecimal).run_cons hs hs' ht hrun
          rw [if_neg hx] at hrun ⊢
          by_cases hcaret : b == caret
          · rw [if_pos hcaret] at hrun ⊢
            obtain ⟨d, rfl, rfl, hd⟩ := run_caret_congr hs hs' hrun
            simp only [List.head?_cons, Option.bind_some, hd]
            rfl
          rw [if_neg hcaret] at hrun ⊢
          rw [← hs] at hrun
          rw [← hs']
          cases hn : namedEscape? (x ++ t) with
          | none =>
              rw [hn] at hrun
              cases hrun
          | some named =>
              simp only [hn, run_skip_bind, run_pure, Except.ok.injEq, Prod.mk.injEq] at hrun
              obtain ⟨hn', hdrop⟩ := run_named_congr hn hrun.2 ht
              simp only [hn', run_skip_bind, run_pure, hrun.1, hdrop]

theorem peeks_escape (c : CodePoint) : escape.Peeks 1 c :=
  Peeks.fromStart (Peeks.bind (fun u => peeks_skipByte u) fun _ => peeks_escapeBody c)

/-! ## Literals -/

theorem peeks_charBody (v : Except Fault CodePoint) : charBody.Peeks 1 v := by
  refine Peeks.bind (fun b => peeks_ahead b) ?_
  intro b
  split
  · exact peeks_pure _ _
  · split
    · exact Peeks.bind (fun c => peeks_escape c) fun _ => peeks_pure _ _
    · split
      · exact Peeks.bind (fun u => peeks_skipByte u) fun _ => peeks_pure _ _
      · exact peeks_pure _ _

theorem peeks_quotedChar (c : CodePoint) : quotedChar.Peeks 1 c := by
  refine Peeks.fromStart (Peeks.bind (fun u => peeks_skipByte u) fun _ =>
    Peeks.bind (fun v => peeks_charBody v) ?_)
  intro v
  split
  · exact peeks_pure _ _
  · refine Peeks.bind (fun b => peeks_ahead b) ?_
    intro b
    split
    · exact Peeks.bind (fun u => peeks_skipByte u) fun _ => peeks_pure _ _
    · exact peeks_pure _ _

theorem peeks_charLiteral (c : CodePoint) : charLiteral.Peeks 2 c := by
  refine Peeks.bind (fun b => peeks_ahead b) ?_
  intro b
  split
  · exact Peeks.lexeme fun c => (peeks_quotedChar c).mono (by decide)
  · exact peeks_fail _ _

/-- A string item is known by its first two bytes, and read like any other. -/
theorem peeks_stringItem (v : Option CodePoint) : stringItem.Peeks 1 v := by
  have gapItem : Peeks 1 (do
      let _ ← takeWhile isBlank
      if (← ahead) = some backslash then
        skipByte
        return none
      else
        fail .openGap) v := by
    refine Peeks.bind (fun w => peeks_takeWhile _ w) fun _ => Peeks.bind (fun b => peeks_ahead b) ?_
    intro b
    split
    · exact Peeks.bind (fun u => peeks_skipByte u) fun _ => peeks_pure _ _
    · exact peeks_fail _ _
  have skipped : ∀ {r : Reader (Option CodePoint)}, r.Peeks 1 v →
      Peeks 1 (skipByte >>= fun _ => r) v :=
    fun hr => Peeks.bind (fun u => peeks_skipByte u) fun _ => hr
  refine peeks_remaining_bind ?_
  intro x t t' hrun ht
  cases x with
  | nil =>
      cases t with
      | nil =>
          cases t' with
          | nil => exact hrun
          | cons => cases ht
      | cons a s =>
          exact absurd (length_stringItem hrun) (Nat.not_succ_le_self _)
  | cons a x =>
      have hhead : (x ++ t').head? = (x ++ t).head? :=
        (head?_eq_of_take (take_append_congr ht x)).symm
      have hread : ∀ {r : Reader (Option CodePoint)}, r.Peeks 1 v →
          r.run (a :: (x ++ t)) = .ok (v, t) → r.run (a :: (x ++ t')) = .ok (v, t') :=
        fun hr => hr.run_cons (x := a :: x) rfl rfl ht
      simp only [List.cons_append, hhead] at hrun ⊢
      by_cases ha : a != backslash
      · rw [if_pos ha] at hrun ⊢
        by_cases hcontrol : a ≤ maxLiteralControl
        · rw [if_pos hcontrol] at hrun
          cases hrun
        rw [if_neg hcontrol] at hrun ⊢
        exact hread (skipped (peeks_pure _ _)) hrun
      rw [if_neg ha] at hrun ⊢
      by_cases hempty : (x ++ t).head? = some ampersand
      · rw [if_pos hempty] at hrun ⊢
        exact hread (skipped (skipped (peeks_pure _ _))) hrun
      rw [if_neg hempty] at hrun ⊢
      by_cases hgap : (x ++ t).head?.any isBlank
      · rw [if_pos hgap] at hrun ⊢
        exact hread (skipped gapItem) hrun
      rw [if_neg hgap] at hrun ⊢
      exact hread (Peeks.bind (fun c => peeks_escape c) fun _ => peeks_pure _ _) hrun

end Reader

/-- The closing quote ends the items. -/
theorem readItems_quote (s : Bytes) : readItems (doubleQuote :: s) = .ok (.ok [], s) := by
  rw [readItems, if_pos (by rfl)]

/-- An item stands in front of the items behind it. -/
theorem readItems_item {a : UInt8} {s t u : Bytes} {item : Option CodePoint} {text : Text}
    (ha : a ≠ doubleQuote) (h : Reader.stringItem.run (a :: s) = .ok (item, t))
    (ht : readItems t = .ok (.ok text, u)) :
    readItems (a :: s) = .ok (.ok (item.toList ++ text), u) := by
  rw [readItems, if_neg (by simpa using ha)]
  split
  · next he =>
    rw [h] at he
    cases he
  · next hi =>
    rw [h] at hi
    cases hi
    rw [ht]

/-- The items of a string end at the closing quote, whatever follows it. -/
theorem readItems_eq_ok {s t : Bytes} {text : Text} (h : readItems s = .ok (.ok text, t)) :
    ∃ x, s = x ++ doubleQuote :: t ∧
      ∀ t', readItems (x ++ doubleQuote :: t') = .ok (.ok text, t') := by
  fun_induction readItems s generalizing text t with
  | case1 => cases h
  | case2 a r ha =>
      cases h
      refine ⟨[], by rw [beq_iff_eq.mp ha]; rfl, ?_⟩
      intro t'
      exact readItems_quote t'
  | case3 => cases h
  | case4 a r ha item u hu _ text w hw ih =>
      cases h
      obtain ⟨x, rfl, hx⟩ := ih hw
      obtain ⟨y, hy⟩ := Reader.exists_read hu
      cases y with
      | nil =>
          have := Reader.length_stringItem hu
          rw [← List.nil_append (x ++ _), ← hy] at this
          exact absurd this (Nat.not_succ_le_self _)
      | cons b y =>
          obtain ⟨rfl, rfl⟩ := List.cons.inj hy
          refine ⟨a :: y ++ x, by simp, ?_⟩
          intro t'
          -- an item looks at one byte behind it, and the quote is there at the latest
          have hhead : (x ++ doubleQuote :: w).take 1 = (x ++ doubleQuote :: t').take 1 := by
            cases x <;> rfl
          have hitem := Reader.peeks_stringItem _ (x := a :: y) hu hhead
          rw [List.append_assoc]
          exact readItems_item (by simpa using ha) hitem (hx t')
  | case5 a r _ item u _ _ hbad _ => exact (hbad text t h).elim

namespace Reader

variable {α β : Type} {n : Nat}

/-- A string literal ends at its closing quote, whatever follows it. -/
theorem run_quotedString_eq_ok {s t : Bytes} {text : Text}
    (h : quotedString.run s = .ok (text, t)) :
    ∃ x, s = x ++ doubleQuote :: t ∧
      ∀ t', quotedString.run (x ++ doubleQuote :: t') = .ok (text, t') := by
  have hitems := run_fromStart_eq_ok.mp h
  cases s with
  | nil =>
      rw [show (skipByte >>= fun _ => stringItems).run [] = readItems [] from rfl, readItems]
        at hitems
      cases hitems
  | cons b r =>
      obtain ⟨x, rfl, hx⟩ := readItems_eq_ok hitems
      refine ⟨b :: x, rfl, ?_⟩
      intro t'
      exact run_fromStart_eq_ok.mpr (hx t')

theorem peeks_quotedString (text : Text) : quotedString.Peeks 0 text := by
  intro x t t' hrun _
  obtain ⟨y, hy, hread⟩ := run_quotedString_eq_ok hrun
  rw [show doubleQuote :: t = [doubleQuote] ++ t from rfl, ← List.append_assoc] at hy
  obtain rfl := List.append_cancel_right hy
  rw [List.append_assoc]
  exact hread t'

theorem run_stringLiteral {s : Bytes} (h : s.head? = some doubleQuote) :
    stringLiteral.run s = (lexeme quotedString).run s := by
  rw [stringLiteral, run_bind_of_ok (run_ahead s), if_pos h]

/-- A string literal is a quoted string and the gap behind it. -/
theorem run_stringLiteral_eq_ok {s t : Bytes} {text : Text} :
    stringLiteral.run s = .ok (text, t) ↔
      s.head? = some doubleQuote ∧ (lexeme quotedString).run s = .ok (text, t) := by
  rw [stringLiteral, run_bind_of_ok (run_ahead s)]
  split
  · next h => simp [h]
  · next h => simp [h]

theorem peeks_stringLiteral (text : Text) : stringLiteral.Peeks 2 text := by
  refine Peeks.bind (fun b => peeks_ahead b) ?_
  intro b
  split
  · exact Peeks.lexeme fun text => (peeks_quotedString text).mono (by decide)
  · exact peeks_fail _ _

/-! ## Tokens, values and directives -/

theorem peeks_identifierBytes (v : Bytes) : identifierBytes.Peeks 1 v := by
  refine Peeks.bind (fun b => peeks_ahead b) ?_
  intro b
  split
  · exact peeks_takeWhile _ _
  · exact peeks_fail _ _

theorem peeks_identifier (name : String) : identifier.Peeks 2 name :=
  Peeks.map _ fun _ => Peeks.lexeme fun v => (peeks_identifierBytes v).mono (by decide)

/-- A fixed text is read where it stands. -/
theorem run_exactly_eq_ok {text v : String} {s t : Bytes} :
    (exactly text).run s = .ok (v, t) ↔ v = text ∧ dropText? text.toList s = some t := by
  rw [exactly, run_bind_of_ok (run_remaining s)]
  cases hs : dropText? text.toList s with
  | none => simp
  | some u =>
      obtain ⟨w, rfl, hw⟩ := dropText?_eq_some.mp hs
      have hlen := length_of_map_toNat hw
      simp only [run_skip_bind, run_pure, ← hlen, List.drop_left, Except.ok.injEq, Prod.mk.injEq,
        Option.some.injEq, eq_comm]

theorem peeks_exactly (text v : String) : (exactly text).Peeks 0 v := by
  intro x t t' hrun _
  obtain ⟨hv, hdrop⟩ := run_exactly_eq_ok.mp hrun
  obtain ⟨w, hw, htext⟩ := dropText?_eq_some.mp hdrop
  obtain rfl := List.append_cancel_right hw
  exact run_exactly_eq_ok.mpr ⟨hv, dropText?_eq_some.mpr ⟨x, rfl, htext⟩⟩

/-- A symbol of one byte, and the gap behind it. -/
theorem run_symbol (b : UInt8) (s : Bytes) :
    (symbol (latinString [b])).run (b :: s)
      = (skipGap s).map fun t => (latinString [b], t) :=
  run_lexeme _ (run_exactly_eq_ok.mpr ⟨rfl, dropText?_latinString.mpr rfl⟩)

theorem run_symbol_eq_ok {b : UInt8} {v : String} {s t : Bytes} :
    (symbol (latinString [b])).run s = .ok (v, t) ↔
      v = latinString [b] ∧ ∃ g, s = b :: g ∧ skipGap g = .ok t := by
  constructor
  · intro h
    obtain ⟨g, hexact, hg⟩ := run_lexeme_eq_ok.mp h
    obtain ⟨hv, hdrop⟩ := run_exactly_eq_ok.mp hexact
    exact ⟨hv, g, dropText?_latinString.mp hdrop, hg⟩
  · rintro ⟨rfl, g, rfl, hg⟩
    rw [run_symbol, hg]
    rfl

theorem peeks_symbol (text v : String) : (symbol text).Peeks 2 v :=
  Peeks.lexeme fun v => (peeks_exactly text v).mono (by decide)

theorem peeks_variant (enumeration : String) {next : String → Option (Reader α)} {a : α}
    (h : ∀ {name r}, next name = some r → r.Peeks 2 a) : (variant enumeration next).Peeks 2 a := by
  refine Peeks.bind_of_read ?_ ?_
  · intro r
    refine Peeks.fromStart (Peeks.bind (fun name => peeks_identifier name) ?_)
    intro name
    split
    · exact peeks_pure _ _
    · exact peeks_pure _ _
  · intro r s t hr
    -- the reader of the payload is one that `next` knows
    obtain ⟨name, u, -, hname⟩ := run_bind_eq_ok.mp (run_fromStart_eq_ok.mp hr)
    split at hname
    · next hn =>
      cases hname
      exact h hn
    · cases hname

end Reader

/-- No further element is read exactly where no comma stands. -/
theorem readElements_eq_nil {α : Type} {element : Reader α} {s t : Bytes} :
    readElements element s = .ok ([], t) ↔ s.head? ≠ some comma ∧ t = s := by
  rw [readElements]
  split
  · next hs =>
    constructor
    · intro h
      split at h
      · cases h
      · split at h
        · cases h
        · split at h <;> cases h
    · intro h
      exact absurd hs h.1
  · next hs => simp [hs, eq_comm]

/-- A further element is read behind a comma, and then the ones after it. -/
theorem readElements_eq_cons {α : Type} {element : Reader α} {s t : Bytes} {a : α} {as : List α} :
    readElements element s = .ok (a :: as, t) ↔
      s.head? = some comma ∧ ∃ v u w, (Reader.symbol ",").run s = .ok (v, u) ∧
        element.run u = .ok (a, w) ∧ readElements element w = .ok (as, t) := by
  rw [readElements]
  split
  · next hs =>
    constructor
    · intro h
      split at h
      · cases h
      · next v u hu =>
        split at h
        · cases h
        · next a' w hw =>
          split at h
          · cases h
          · next later t' ht =>
            cases h
            exact ⟨hs, v, u, w, hu, hw, ht⟩
    · rintro ⟨-, v, u, w, hu, hw, ht⟩
      split
      · next he =>
        rw [hu] at he
        cases he
      · next v' u' hu' =>
        rw [hu] at hu'
        cases hu'
        split
        · next he =>
          rw [hw] at he
          cases he
        · next a' w' hw' =>
          rw [hw] at hw'
          cases hw'
          rw [ht]
  · next hs => simp [hs]

namespace Reader

variable {α β : Type} {n : Nat}

/-- The elements of a list end where no comma follows. -/
theorem peeks_elements {element : Reader α} (h : ∀ a, element.Peeks 2 a) (as : List α) :
    (elements element).Peeks 2 as := by
  induction as with
  | nil =>
      intro x t t' hrun ht
      obtain ⟨hs, hx⟩ := readElements_eq_nil.mp hrun
      obtain rfl := List.append_left_eq_self.mp hx.symm
      refine readElements_eq_nil.mpr ⟨?_, rfl⟩
      rwa [List.nil_append, ← head?_eq_of_take (take_eq_of_le ht (by decide))]
  | cons a as ih =>
      intro x t t' hrun ht
      obtain ⟨hs, v, u, w, hu, hw, has⟩ := readElements_eq_cons.mp hrun
      -- the comma `x'`, the element `y` and the later ones `z`, each read in front of the next
      obtain ⟨z, rfl⟩ := exists_read (r := elements element) has
      obtain ⟨y, rfl⟩ := exists_read hw
      obtain ⟨x', hx⟩ := exists_read hu
      obtain rfl : x = x' ++ (y ++ z) := List.append_cancel_right (hx.trans (by simp))
      have hhead := head?_eq_of_take (take_append_congr (take_eq_of_le ht (by decide))
        (x' ++ (y ++ z)))
      refine readElements_eq_cons.mpr ⟨hhead ▸ hs, v, y ++ (z ++ t'), z ++ t', ?_, ?_, ih has ht⟩
      · have hsymbol : (symbol ",").run (x' ++ ((y ++ z) ++ t)) = .ok (v, (y ++ z) ++ t) := by
          simpa only [List.append_assoc] using hu
        simpa only [List.append_assoc] using (peeks_symbol "," v).behind hsymbol ht
      · exact (h a).behind hw ht

theorem peeks_listItems {element : Reader α} (h : ∀ a, element.Peeks 2 a) (as : List α) :
    (listItems element).Peeks 2 as := by
  refine Peeks.bind (fun b => peeks_ahead b) ?_
  intro b
  split
  · exact peeks_pure _ _
  · exact Peeks.bind h fun _ => Peeks.bind (fun later => peeks_elements h later) fun _ =>
      peeks_pure _ _

theorem peeks_payload (kind : PayloadKind) (payload : KeyPayload) :
    kind.reader.Peeks 2 payload := by
  cases kind with
  | char => exact Peeks.map _ fun c => peeks_charLiteral c
  | int => exact Peeks.map _ fun k => peeks_natural k

theorem peeks_key (key : Key) : Key.reader.Peeks 2 key := by
  refine peeks_variant _ ?_
  intro name r hr
  obtain ⟨kind, -, rfl⟩ := Option.map_eq_some_iff.mp hr
  cases kind with
  | none => exact peeks_pure _ _
  | some kind => exact Peeks.map _ fun payload => peeks_payload kind payload

theorem peeks_modifier (m : Modifier) : Modifier.reader.Peeks 2 m := by
  refine peeks_variant _ ?_
  intro name r hr
  split at hr
  · cases hr
    exact peeks_pure _ _
  · cases hr

theorem peeks_keyword (expected : String) (u : Unit) : (keyword expected).Peeks 2 u := by
  refine Peeks.fromStart (Peeks.bind (fun name => peeks_identifier name) ?_)
  intro name
  split
  · exact peeks_pure _ _
  · exact peeks_pure _ _

theorem peeks_terminalFilter (term : Option Text) : terminalFilter.Peeks 2 term := by
  refine Peeks.bind (fun b => peeks_ahead b) ?_
  intro b
  split
  · exact Peeks.bind (fun u => Peeks.lexeme fun u => peeks_skipByte u) fun _ => peeks_pure _ _
  · exact Peeks.bind (fun text => peeks_stringLiteral text) fun _ => peeks_pure _ _

/-! ## Readers that end in a gap -/

/-- Where `r` reads `a`, it reads a text that ends with a visible byte, and
    then the gap behind it: with another gap there, it reads the same and that
    gap instead. -/
def Delimited (r : Reader α) (a : α) : Prop :=
  ∀ ⦃s t : Bytes⦄, r.run s = .ok (a, t) →
    ∃ x b g, s = x ++ b :: g ∧ b ≠ newline ∧ skipGap g = .ok t ∧
      ∀ ⦃g' : Bytes⦄, g'.head? = g.head? →
        r.run (x ++ b :: g') = (skipGap g').map fun t' => (a, t')

theorem delimited_stringLiteral (text : Text) : stringLiteral.Delimited text := by
  intro s t h
  obtain ⟨hquote, hlex⟩ := run_stringLiteral_eq_ok.mp h
  obtain ⟨g, hq, hg⟩ := run_lexeme_eq_ok.mp hlex
  obtain ⟨x, rfl, hother⟩ := run_quotedString_eq_ok hq
  refine ⟨x, doubleQuote, g, rfl, by decide, hg, ?_⟩
  intro g' _
  have hquote' : (x ++ doubleQuote :: g').head? = some doubleQuote := by
    cases x with
    | nil => rfl
    | cons c x => exact hquote
  rw [run_stringLiteral hquote', run_lexeme quotedString (hother g')]

theorem delimited_symbol {b : UInt8} (hb : b ≠ newline) (v : String) :
    (symbol (latinString [b])).Delimited v := by
  intro s t h
  obtain ⟨rfl, g, rfl, hg⟩ := run_symbol_eq_ok.mp h
  refine ⟨[], b, g, rfl, hb, hg, ?_⟩
  intro g' _
  exact run_symbol b g'

/-- A sequence ends in a gap as its last reader does. -/
theorem Delimited.bind {r : Reader α} {next : α → Reader β} {b : β} (h : ∀ a, r.Peeks 2 a)
    (h' : ∀ a, (next a).Delimited b) : (r >>= next).Delimited b := by
  intro s t hrun
  obtain ⟨a, u, hr, hn⟩ := run_bind_eq_ok.mp hrun
  obtain ⟨x, c, g, rfl, hc, hg, hother⟩ := h' a hn
  obtain ⟨y, rfl⟩ := exists_read hr
  refine ⟨y ++ x, c, g, by rw [List.append_assoc], hc, hg, ?_⟩
  intro g' hhead
  -- the readers in front look at two bytes: the visible one and the first of the gap
  have htake : (c :: g).take 2 = (c :: g').take 2 := by
    cases g <;> cases g' <;> simp_all
  rw [List.append_assoc, run_bind_of_ok ((h a).behind hr htake)]
  exact hother hhead

/-- What is made of the value does not matter for how a reader ends. -/
theorem Delimited.map {r : Reader α} (f : α → β) {b : β} (h : ∀ a, r.Delimited a) :
    (r >>= fun a => Pure.pure (f a)).Delimited b := by
  intro s t hrun
  obtain ⟨a, u, hr, hn⟩ := run_bind_eq_ok.mp hrun
  cases hn
  obtain ⟨x, c, g, rfl, hc, hg, hother⟩ := h a hr
  refine ⟨x, c, g, rfl, hc, hg, ?_⟩
  intro g' hhead
  rw [run_bind, hother hhead]
  cases skipGap g' <;> rfl

theorem delimited_list {element : Reader α} (h : ∀ a, element.Peeks 2 a) (as : List α) :
    (list element).Delimited as := by
  refine Delimited.bind (fun v => peeks_symbol _ v) fun _ =>
    Delimited.bind (fun bs => peeks_listItems h bs) fun bs => Delimited.map (fun _ => bs) ?_
  intro v
  rw [show "]" = latinString [closeBracket] by decide]
  exact delimited_symbol (by decide) v

theorem delimited_mapDirective (d : Directive) : mapDirective.Delimited d :=
  Delimited.bind (fun u => peeks_keyword _ u) fun _ =>
    Delimited.bind (fun term => peeks_terminalFilter term) fun _ =>
      Delimited.bind (fun data => peeks_stringLiteral data) fun _ =>
        Delimited.bind (fun key => peeks_key key) fun _ =>
          Delimited.map _ fun ms => delimited_list (fun m => peeks_modifier m) ms

theorem delimited_debugLogDirective (d : Directive) : debugLogDirective.Delimited d :=
  Delimited.bind (fun u => peeks_keyword _ u) fun _ =>
    Delimited.map _ fun text => delimited_stringLiteral text

end Reader

end TerminalConfig
