import TypeNotes.Proofs.Signature.Margin

/-!
# Lexemes in front of another rest

Tokens that were read stay the same when something else follows them: nothing, a blank, a comment or
a dash. `Reads o s us rest` says that the tokens `us` stand at the front of the bytes `s`, and
`Reads.reseam` changes what follows them.

**Patterns.** A pattern that is *plain* takes none of the bytes that may follow, so it fares alike
before both rests (`Pattern.seam`), unless it had gone on beyond the tokens. Only tags and
quotations are not plain. A quotation that is not closed is no token. A tag that is not closed is
read as a per cent sign, the letter `a` and a bracket, so these may not be among the tokens
(`opensTag`).

**Colons.** A name and a colon are a key, unless a second colon follows. The tokens never end
between two colons, since these are one token (`not_reads_between_colons`).
-/

namespace TypeNotes.Signature

/-! ### Patterns at a seam -/

/-- The bytes that end every lexeme which they follow: blanks, hash signs and dashes. -/
def stops : List UInt8 := [' ', '\t', '\r', '\n', '#', '-'].map byte

/-- Nothing follows, or a byte that ends every lexeme. -/
def StopAhead (r : List UInt8) : Prop := ∀ b ∈ r.head?, b ∈ stops

/-- All bytes there are. -/
def allBytes : List UInt8 := (List.range 256).map .ofNat

theorem mem_allBytes (b : UInt8) : b ∈ allBytes :=
  List.mem_map.2 ⟨b.toNat, List.mem_range.2 b.toNat_lt, UInt8.ofNat_toNat⟩

/-- Where bytes follow, the first of them ends lexemes (`StopAhead`). -/
theorem StopAhead.head_mem {b : UInt8} {s : List UInt8} (h : StopAhead (b :: s)) : b ∈ stops :=
  h b rfl

namespace Pattern

/-- Whether the pattern looks at a byte that it does not take. -/
def watches : Pattern → Bool
  | notBefore _ => true
  | optional p => p.watches
  | andThen p q | orElse p q => p.watches || q.watches
  | _ => false

/-- Whether there are no alternatives in the pattern. -/
def isStraight : Pattern → Bool
  | orElse _ _ => false
  | andThen p q => p.isStraight && q.isStraight
  | _ => true

/-- Whether the lexemes of the pattern are all of one length, as far as its parts tell. -/
def isFixed : Pattern → Bool
  | exactly _ | one _ => true
  | _ => false

/-- Whether the pattern takes one byte. -/
def isSingle : Pattern → Bool
  | exactly bytes => bytes.length == 1
  | one _ => true
  | _ => false

/-- Whether the pattern fits everywhere. -/
def isTotal : Pattern → Bool
  | many _ | optional _ => true
  | _ => false

/-- Whether the pattern takes no byte that ends a lexeme, as far as its parts tell, or only as its
first one if it is known that there is another one to come before the seam. -/
def isPlain : Bool → Pattern → Bool
  | first, exactly bytes => (if first then bytes.tail else bytes).all (!stops.contains ·)
  | first, one among => first || stops.all (!among ·)
  | _, many among => stops.all (!among ·)
  | _, quotation _ => false
  | _, notBefore b => b == byte ':'
  | first, optional p => p.isPlain first && p.isSingle
  | first, andThen p q => p.isPlain first && q.isPlain false && p.isStraight &&
      (p.isFixed || q.takesByte || q.isTotal)
  | first, orElse p q => p.isPlain first && q.isPlain first && !p.watches && !q.watches

/-- How a pattern fares on the bytes `x`, with `r` or with `r'` behind them. -/
inductive Seam (p : Pattern) (x r r' : List UInt8) : Prop
  /-- It cuts the same lexeme off. -/
  | same {a b : List UInt8} : x = a ++ b → p.split (x ++ r) = some (a, b ++ r) →
      p.split (x ++ r') = some (a, b ++ r') → Seam p x r r'
  /-- It fits in neither case. -/
  | neither : p.split (x ++ r) = none → p.split (x ++ r') = none → Seam p x r r'
  /-- It goes on into `r`. -/
  | beyond {a c : List UInt8} : p.split (x ++ r) = some (a, c) → x.length < a.length →
      (p.isFixed = true → p.split (x ++ r') = none) →
      (p.isStraight = true → p.split (x ++ r') = none ∨ p.split (x ++ r') = some (x, r')) →
      Seam p x r r'
  /-- It does not fit in front of a second colon. -/
  | colon : p.watches = true → r.head? = some (byte ':') → p.split (x ++ r) = none →
      p.split (x ++ r') = some (x, r') → Seam p x r r'

variable {r r' : List UInt8}

/-- `splitExactly` cuts off fixed bytes where they stand in front. -/
theorem splitExactly_eq_some_iff {bytes s a c : List UInt8} :
    splitExactly bytes s = some (a, c) ↔ a = bytes ∧ s = bytes ++ c := by
  fun_induction splitExactly bytes s generalizing a <;> simp <;> grind

/-- Fixed bytes that do not end lexemes fare alike on both sides of a seam (`Pattern.Seam`). -/
theorem seam_exactly {first : Bool} {bytes x : List UInt8} (hfirst : first = true → x ≠ [])
    (hr : StopAhead r') (h : (exactly bytes).isPlain first = true) :
    Seam (exactly bytes) x r r' := by
  -- What fits only beyond the bytes at hand takes the byte that follows them.
  have hstop : (∀ d, x ≠ bytes ++ d) → splitExactly bytes (x ++ r') = none := by
    intro hx
    refine Option.eq_none_iff_forall_ne_some.2 fun parts hsplit => ?_
    obtain ⟨-, heq⟩ := splitExactly_eq_some_iff.1 hsplit
    rcases List.append_eq_append_iff.1 heq with ⟨d, hd, hrest⟩ | ⟨d, hd, -⟩
    · cases d with
      | nil => exact hx [] (by simpa using hd.symm)
      | cons c d =>
        have hc : c ∈ stops := (hrest ▸ hr : StopAhead (c :: (d ++ _))).head_mem
        have hmem : c ∈ if first then bytes.tail else bytes := by
          cases first with
          | true =>
            obtain ⟨c', x', rfl⟩ := List.exists_cons_of_ne_nil (hfirst rfl)
            simp [hd]
          | false => simp [hd]
        have := List.all_eq_true.1 h c hmem
        simp [hc] at this
    · exact hx d hd
  by_cases hx : ∃ d, x = bytes ++ d
  · obtain ⟨b, rfl⟩ := hx
    refine .same (a := bytes) (b := b) rfl ?_ ?_
    · exact splitExactly_eq_some_iff.2 ⟨rfl, List.append_assoc ..⟩
    · exact splitExactly_eq_some_iff.2 ⟨rfl, List.append_assoc ..⟩
  · rw [not_exists] at hx
    have hnone := hstop hx
    cases hsplit : (exactly bytes).split (x ++ r) with
    | none => exact .neither hsplit hnone
    | some parts =>
      obtain ⟨a, c⟩ := parts
      obtain ⟨rfl, heq⟩ := splitExactly_eq_some_iff.1 hsplit
      refine .beyond hsplit ?_ (fun _ => hnone) fun _ => .inl hnone
      rcases List.append_eq_append_iff.1 heq with ⟨d, rfl, -⟩ | ⟨d, hd, -⟩
      · cases d with
        | nil => exact absurd (by simp) (hx [])
        | cons c d => simp
      · exact absurd hd (hx d)

/-- A byte of a class without those that end lexemes fares alike on both sides of a seam. -/
theorem seam_one {first : Bool} {among : UInt8 → Bool} {x : List UInt8}
    (hfirst : first = true → x ≠ []) (hr : StopAhead r') (h : (one among).isPlain first = true) :
    Seam (one among) x r r' := by
  cases x with
  | cons b x =>
    cases hb : among b with
    | true => exact .same (a := [b]) (b := x) rfl (by simp [split, hb]) (by simp [split, hb])
    | false => exact .neither (by simp [split, hb]) (by simp [split, hb])
  | nil =>
    have hnone : (one among).split r' = none := by
      cases r' with
      | nil => rfl
      | cons b r' =>
        have hstops : stops.all (!among ·) = true := by
          cases first with
          | true => exact absurd rfl (hfirst rfl)
          | false => exact h
        have := List.all_eq_true.1 hstops b hr.head_mem
        simp_all [split]
    cases hsplit : (one among).split ([] ++ r) with
    | none => exact .neither hsplit hnone
    | some parts =>
      obtain ⟨a, c⟩ := parts
      refine .beyond hsplit ?_ (fun _ => hnone) fun _ => .inl hnone
      exact List.length_pos_iff.2 (ne_nil_of_split rfl hsplit)

/-- A run of bytes ends at a seam, whatever stop follows. -/
theorem seam_many {first : Bool} {among : UInt8 → Bool} {x : List UInt8} (hr : StopAhead r')
    (h : (many among).isPlain first = true) : Seam (many among) x r r' := by
  have hstop : r'.takeWhile among = [] ∧ r'.dropWhile among = r' := by
    cases r' with
    | nil => exact ⟨rfl, rfl⟩
    | cons b r' =>
      have := List.all_eq_true.1 h b hr.head_mem
      simp_all
  by_cases hall : ∀ b ∈ x, among b = true
  · have hr' : (many among).split (x ++ r') = some (x, r') := by
      simp [split, List.takeWhile_append_of_pos hall, List.dropWhile_append_of_pos hall, hstop]
    have hr₀ : (many among).split (x ++ r) = some (x ++ r.takeWhile among, r.dropWhile among) := by
      simp [split, List.takeWhile_append_of_pos hall, List.dropWhile_append_of_pos hall]
    cases hrun : r.takeWhile among with
    | nil =>
      have hdrop : r.dropWhile among = r := by
        have := List.takeWhile_append_dropWhile (p := among) (l := r)
        rwa [hrun] at this
      rw [hrun, hdrop, List.append_nil] at hr₀
      exact .same (b := []) (by simp) hr₀ hr'
    | cons b run =>
      rw [hrun] at hr₀
      exact .beyond hr₀ (by simp) (fun hfixed => by cases hfixed) fun _ => .inr hr'
  · -- The run ends inside of the bytes at hand.
    have hend : ∀ s, (many among).split (x ++ s) =
        some (x.takeWhile among, x.dropWhile among ++ s) := by
      intro s
      have hdrop : x.dropWhile among ≠ [] := fun hnil => hall (List.dropWhile_eq_nil_iff.1 hnil)
      have htake : (x.takeWhile among).length ≠ x.length := by
        have := congrArg List.length (List.takeWhile_append_dropWhile (p := among) (l := x))
        have := List.length_pos_iff.2 hdrop
        rw [List.length_append] at *
        omega
      simp [split, List.takeWhile_append, List.dropWhile_append, hdrop, htake]
    exact .same List.takeWhile_append_dropWhile.symm (hend r) (hend r')

/-- A byte that does not end lexemes does not stand behind a seam. -/
theorem seam_notBefore {first : Bool} {b : UInt8} {x : List UInt8} (hr : StopAhead r')
    (h : (notBefore b).isPlain first = true) : Seam (notBefore b) x r r' := by
  obtain rfl : b = byte ':' := beq_iff_eq.1 h
  cases x with
  | cons c x =>
    cases hc : c == byte ':' with
    | true => exact .neither (by simp [split, hc]) (by simp [split, hc])
    | false => exact .same (a := []) rfl (by simp [split, hc]) (by simp [split, hc])
  | nil =>
    have hr' : (notBefore (byte ':')).split ([] ++ r') = some ([], r') := by
      have hne : r'.head? ≠ some (byte ':') := fun heq => absurd (hr _ heq) (by decide)
      simp [split, hne]
    by_cases hcolon : r.head? = some (byte ':')
    · exact .colon rfl hcolon (by simp [split, hcolon]) hr'
    · exact .same (a := []) (b := []) rfl (by simp [split, hcolon]) hr'

/-- Two patterns cut off what the first one does, and then what the second one does. -/
theorem split_andThen_of_some {p q : Pattern} {s a c : List UInt8}
    (h : p.split s = some (a, c)) : (andThen p q).split s =
      (q.split c).map fun (second, rest) => (a ++ second, rest) := by
  simp [split, h]

theorem split_andThen_of_none {p q : Pattern} {s : List UInt8} (h : p.split s = none) :
    (andThen p q).split s = none := by
  simp [split, h]

/-- What two patterns cut off is cut off by each of them in turn. -/
theorem exists_of_split_andThen {p q : Pattern} {s a c : List UInt8}
    (h : (andThen p q).split s = some (a, c)) :
    ∃ a₁ a₂, a = a₁ ++ a₂ ∧ p.split s = some (a₁, a₂ ++ c) ∧ q.split (a₂ ++ c) = some (a₂, c) := by
  cases hp : p.split s with
  | none => rw [split_andThen_of_none hp] at h; cases h
  | some parts =>
    obtain ⟨a₁, c₁⟩ := parts
    rw [split_andThen_of_some hp] at h
    obtain ⟨⟨a₂, c₂⟩, hq, heq⟩ := Option.map_eq_some_iff.1 h
    obtain ⟨rfl, rfl⟩ := Prod.mk.inj heq
    obtain rfl := eq_append_of_split hq
    exact ⟨a₁, a₂, rfl, rfl, hq⟩

/-- A pattern with `Pattern.isSingle` takes one byte. -/
theorem length_of_isSingle {p : Pattern} (hp : p.isSingle = true) {s a c : List UInt8}
    (h : p.split s = some (a, c)) : a.length = 1 := by
  cases p with
  | exactly bytes =>
    obtain ⟨rfl, -⟩ := splitExactly_eq_some_iff.1 h
    simpa [isSingle] using hp
  | one among => cases s <;> grind [split]
  | _ => cases hp

/-- A byte that may be left out fares alike, if it does where it is there. -/
theorem seam_optional {p : Pattern} {x : List UInt8} (hp : p.isSingle = true)
    (h : Seam p x r r') : Seam (optional p) x r r' := by
  cases h with
  | same hx hr hr' => exact .same hx (by simp [split, hr]) (by simp [split, hr'])
  | neither hr hr' => exact .same (a := []) rfl (by simp [split, hr]) (by simp [split, hr'])
  | @beyond a c hr hlen hfixed _ =>
    -- One byte was taken, so there was none before the seam.
    obtain rfl : x = [] := by
      rw [length_of_isSingle hp hr] at hlen
      exact List.length_eq_zero_iff.1 (by omega)
    have hr' : p.split ([] ++ r') = none := hfixed (by cases p <;> simp_all [isSingle, isFixed])
    have htaken : (optional p).split ([] ++ r) = some (a, c) := by
      rw [split, hr, Option.getD_some]
    refine .beyond htaken hlen (fun h => by cases h) fun _ => .inr ?_
    rw [split, hr', Option.getD_none]
    rfl
  | colon hwatches _ _ _ => cases p <;> simp_all [isSingle, watches]

/-- Without a byte before the seam, nothing is taken in front of a byte that ends lexemes. -/
theorem split_of_seam {p : Pattern} (h : Seam p [] [] r') :
    p.split r' = none ∨ p.split r' = some ([], r') := by
  cases h with
  | same hx _ hr' =>
    obtain ⟨rfl, rfl⟩ := List.append_eq_nil_iff.1 hx.symm
    exact .inr hr'
  | neither _ hr' => exact .inl hr'
  | beyond hr hlen _ _ =>
    have := eq_append_of_split hr
    simp_all
  | colon _ hhead _ _ => cases hhead

/-- Two patterns in sequence fare alike, if both do and neither gives back what it took. -/
theorem seam_andThen {p q : Pattern} {x : List UInt8} (hp : Seam p x r r')
    (hq : ∀ b, Seam q b r r') (hq₀ : Seam q [] [] r') (hstraight : p.isStraight = true)
    (hpq : (p.isFixed || q.takesByte || q.isTotal) = true) : Seam (andThen p q) x r r' := by
  cases hp with
  | @same a b hx hr hr' =>
    subst hx
    have hthen := split_andThen_of_some (q := q) hr
    have hthen' := split_andThen_of_some (q := q) hr'
    cases hq b with
    | same hb hqr hqr' =>
      subst hb
      rw [hqr] at hthen
      rw [hqr'] at hthen'
      exact .same (List.append_assoc ..).symm hthen hthen'
    | neither hqr hqr' =>
      rw [hqr] at hthen
      rw [hqr'] at hthen'
      exact .neither hthen hthen'
    | beyond hqr hlen _ hq' =>
      rw [hqr] at hthen
      refine .beyond hthen ?_ (fun h => by cases h) fun h => ?_
      · rw [List.length_append, List.length_append]
        omega
      · rw [isStraight, Bool.and_eq_true_iff] at h
        rcases hq' h.2 with hqr' | hqr'
        · exact .inl (by rw [hthen', hqr']; rfl)
        · exact .inr (by rw [hthen', hqr']; rfl)
    | colon hwatches hhead hqr hqr' =>
      rw [hqr] at hthen
      rw [hqr'] at hthen'
      exact .colon (by simp [watches, hwatches]) hhead hthen hthen'
  | neither hr hr' => exact .neither (split_andThen_of_none hr) (split_andThen_of_none hr')
  | beyond hr hlen hfixed hp' =>
    have hthen := split_andThen_of_some (q := q) hr
    have hthen' : (andThen p q).split (x ++ r') = none ∨
        (andThen p q).split (x ++ r') = some (x, r') ∧ q.split r' = some ([], r') := by
      rcases hp' hstraight with hr' | hr'
      · exact .inl (split_andThen_of_none hr')
      · rw [split_andThen_of_some hr']
        rcases split_of_seam hq₀ with hqr' | hqr'
        · exact .inl (by rw [hqr']; rfl)
        · exact .inr ⟨by simp [hqr'], hqr'⟩
    cases hqr : q.split _ with
    | some parts =>
      rw [hqr] at hthen
      refine .beyond hthen ?_ (fun h => by cases h) fun _ => hthen'.imp_right And.left
      rw [List.length_append]
      omega
    | none =>
      rw [hqr] at hthen
      refine .neither hthen ?_
      rcases hthen' with hthen' | ⟨-, hqr'⟩
      · exact hthen'
      · simp only [Bool.or_eq_true_iff] at hpq
        rcases hpq with (hpq | hpq) | hpq
        · exact split_andThen_of_none (hfixed hpq)
        · exact absurd rfl (ne_nil_of_split hpq hqr')
        · cases q <;> simp_all [isTotal, split]
  | colon hwatches hhead hr hr' =>
    have hnone := split_andThen_of_none (q := q) hr
    have hthen' := split_andThen_of_some (q := q) hr'
    rcases split_of_seam hq₀ with hqr' | hqr'
    · rw [hqr'] at hthen'
      exact .neither hnone hthen'
    · rw [hqr'] at hthen'
      exact .colon (by simp [watches, hwatches]) hhead hnone (by simpa using hthen')

/-- Alternatives fare alike, if both do and neither looks past the seam. -/
theorem seam_orElse {p q : Pattern} {x : List UInt8} (hp : Seam p x r r') (hq : Seam q x r r')
    (hpw : p.watches = false) (hqw : q.watches = false) : Seam (orElse p q) x r r' := by
  cases hp with
  | same hx hr hr' => exact .same hx (by simp [split, hr]) (by simp [split, hr'])
  | beyond hr hlen _ _ =>
    exact .beyond (by rw [split, hr]; rfl) hlen (fun h => by cases h) fun h => by cases h
  | colon hwatches _ _ _ => exact absurd hwatches (by simp [hpw])
  | neither hr hr' =>
    have hor : (orElse p q).split (x ++ r) = q.split (x ++ r) := by rw [split, hr, Option.none_or]
    have hor' : (orElse p q).split (x ++ r') = q.split (x ++ r') := by
      rw [split, hr', Option.none_or]
    cases hq with
    | same hx hqr hqr' => exact .same hx (hor.trans hqr) (hor'.trans hqr')
    | neither hqr hqr' => exact .neither (hor.trans hqr) (hor'.trans hqr')
    | beyond hqr hlen _ _ =>
      exact .beyond (hor.trans hqr) hlen (fun h => by cases h) fun h => by cases h
    | colon hwatches _ _ _ => exact absurd hwatches (by simp [hqw])

/-- A plain pattern fares alike in front of both rests, unless it takes a part of the one that was
there, or looks for a second colon in it. -/
theorem seam {p : Pattern} {first : Bool} (hp : p.isPlain first = true) (hr : StopAhead r')
    {x : List UInt8} (hx : first = true → x ≠ []) : Seam p x r r' := by
  induction p generalizing first x r with
  | exactly bytes => exact seam_exactly hx hr hp
  | one among => exact seam_one hx hr hp
  | many among => exact seam_many hr hp
  | quotation mark => cases hp
  | notBefore b => exact seam_notBefore hr hp
  | optional p ih =>
    rw [isPlain, Bool.and_eq_true_iff] at hp
    exact seam_optional hp.2 (ih hp.1 hx)
  | andThen p q ihp ihq =>
    simp only [isPlain, Bool.and_eq_true_iff] at hp
    obtain ⟨⟨⟨hplain, hq⟩, hstraight⟩, hpq⟩ := hp
    exact seam_andThen (ihp hplain hx) (fun b => ihq hq (by simp)) (ihq hq (by simp)) hstraight
      hpq
  | orElse p q ihp ihq =>
    simp only [isPlain, Bool.and_eq_true_iff, Bool.not_eq_true'] at hp
    obtain ⟨⟨⟨hplain, hq⟩, hpw⟩, hqw⟩ := hp
    exact seam_orElse (ihp hplain hx) (ihq hq hx) hpw hqw

/-! ### Lexemes that stay -/

/-- Whether a lexeme that lies before the seam stays there, as far as the parts of the pattern
tell. -/
def isKept : Pattern → Bool
  | quotation _ => true
  -- However far the run goes, it ends before the byte that has to follow it.
  | andThen (many _) (one _) => true
  | andThen p q => p.isKept && q.isKept
  | orElse p q => p.isKept && q.isKept && p.takesByte && q.takesByte &&
      allBytes.all fun b => !(p.mayStart b && q.mayStart b)
  | p => p.isPlain false

/-- `splitQuotation` finds the end of a quotation whatever follows it. -/
theorem splitQuotation_of_eq {mark : UInt8} {a s : List UInt8}
    (h : splitQuotation mark (a ++ s) = some (a, s)) (s' : List UInt8) :
    splitQuotation mark (a ++ s') = some (a, s') := by
  generalize hw : a ++ s = w at h
  fun_induction splitQuotation mark w generalizing a with
  | case1 => cases h
  | case2 b rest hb =>
    obtain ⟨rfl, rfl⟩ := Prod.mk.inj (Option.some.inj h)
    rw [List.singleton_append, splitQuotation.eq_def]
    simp [hb]
  | case3 b hb hslash => cases h
  | case4 b hb hslash c rest hc => cases h
  | case5 b hb hslash c rest hc ih =>
    obtain ⟨⟨inside, rest'⟩, hsplit, heq⟩ := Option.map_eq_some_iff.1 h
    obtain ⟨rfl, rfl⟩ := Prod.mk.inj heq
    obtain rfl := beq_iff_eq.1 hslash
    simp only [List.cons_append, List.cons.injEq, true_and] at hw
    rw [List.cons_append, List.cons_append, splitQuotation_escape (by simpa using hb), if_neg hc,
      ih hw hsplit]
    rfl
  | case6 b rest hb hslash ih =>
    obtain ⟨⟨inside, rest'⟩, hsplit, heq⟩ := Option.map_eq_some_iff.1 h
    obtain ⟨rfl, rfl⟩ := Prod.mk.inj heq
    simp only [List.cons_append, List.cons.injEq, true_and] at hw
    rw [List.cons_append, splitQuotation_cons (by simpa using hb) (by simpa using hslash),
      ih hw hsplit]
    rfl

/-- So is the byte that closes a run. -/
theorem split_many_one_of_eq {run close : UInt8 → Bool} {a s : List UInt8}
    (h : (andThen (many run) (one close)).split (a ++ s) = some (a, s)) (s' : List UInt8) :
    (andThen (many run) (one close)).split (a ++ s') = some (a, s') := by
  obtain ⟨a₁, a₂, rfl, hrun, hclose⟩ := exists_of_split_andThen h
  cases a₂ with
  | nil => exact absurd rfl (ne_nil_of_split rfl hclose)
  | cons c a₂ =>
    obtain ⟨hc, rfl⟩ : close c = true ∧ [] = a₂ := by simpa [split, and_comm] using hclose
    simp only [split, Option.some.injEq, Prod.mk.injEq] at hrun
    have hall : ∀ b ∈ a₁, run b = true := fun b hb => List.mem_takeWhile_imp (hrun.1 ▸ hb)
    have hstop : run c = false := by
      have hhead := List.head?_dropWhile_not run (a₁ ++ [c] ++ s)
      rw [hrun.2] at hhead
      exact hhead
    simp [split, List.takeWhile_append_of_pos hall, List.dropWhile_append_of_pos hall, hstop, hc]

/-- A plain pattern that cut a lexeme off before the seam cuts it off there again. -/
theorem split_of_isPlain {p : Pattern} {first : Bool} (hp : p.isPlain first = true)
    (hr : StopAhead r') {a b : List UInt8} (hx : first = true → a ++ b ≠ [])
    (h : p.split (a ++ b ++ r) = some (a, b ++ r)) :
    p.split (a ++ b ++ r') = some (a, b ++ r') := by
  cases seam (r := r) hp hr hx with
  | same hab hsplit hsplit' =>
    rw [h] at hsplit
    obtain ⟨rfl, hb⟩ := Prod.mk.inj (Option.some.inj hsplit)
    rwa [← List.append_cancel_right hb] at hsplit'
  | neither hsplit _ =>
    rw [h] at hsplit
    cases hsplit
  | beyond hsplit hlen _ _ =>
    rw [h] at hsplit
    obtain ⟨rfl, -⟩ := Prod.mk.inj (Option.some.inj hsplit)
    rw [List.length_append] at hlen
    omega
  | colon _ _ hsplit _ =>
    rw [h] at hsplit
    cases hsplit

/-- Patterns whose lexemes start with different bytes do not fit at one place. -/
theorem split_eq_none_of_mayStart {p : Pattern} (hp : p.takesByte = true) {b : UInt8}
    (h : p.mayStart b = false) (s : List UInt8) : p.split (b :: s) = none := by
  refine Option.eq_none_iff_forall_ne_some.2 fun parts hsplit => ?_
  rw [mayStart_of_split hsplit (ne_nil_of_split hp hsplit)] at h
  cases h

/-- A lexeme before the seam stays the same, if the pattern ends it by itself. -/
theorem split_of_isKept {p : Pattern} (hp : p.isKept = true) (hr : StopAhead r') {a b : List UInt8}
    (h : p.split (a ++ b ++ r) = some (a, b ++ r)) :
    p.split (a ++ b ++ r') = some (a, b ++ r') := by
  fun_induction isKept p generalizing a b with
  | case1 mark =>
    rw [List.append_assoc] at h ⊢
    exact splitQuotation_of_eq h _
  | case2 run close =>
    rw [List.append_assoc] at h ⊢
    exact split_many_one_of_eq h _
  | case3 p q _ ihp ihq =>
    obtain ⟨hkept, hkept'⟩ := Bool.and_eq_true_iff.1 hp
    obtain ⟨a₁, a₂, rfl, hsplit, hsplit'⟩ := exists_of_split_andThen h
    have hfirst : p.split (a₁ ++ (a₂ ++ b) ++ r') = some (a₁, a₂ ++ b ++ r') :=
      ihp hkept (by simpa using hsplit)
    have hsecond : q.split (a₂ ++ b ++ r') = some (a₂, b ++ r') :=
        ihq hkept' (by simpa using hsplit')
    rw [← List.append_assoc] at hfirst
    rw [split_andThen_of_some hfirst, hsecond]
    rfl
  | case4 p q ihp ihq =>
    simp only [Bool.and_eq_true_iff] at hp
    obtain ⟨⟨⟨⟨hkept, hkept'⟩, htakes⟩, htakes'⟩, hdistinct⟩ := hp
    rw [split] at h ⊢
    rcases Option.or_eq_some_iff.1 h with h | ⟨-, h⟩
    · rw [ihp hkept h]
      rfl
    · -- The first alternative does not start with the byte at hand.
      obtain ⟨c, a, rfl⟩ := List.exists_cons_of_ne_nil (ne_nil_of_split htakes' h)
      have hstart := mayStart_of_split h (List.cons_ne_nil c a)
      have hc := List.all_eq_true.1 hdistinct c (mem_allBytes c)
      rw [hstart, Bool.and_true, Bool.not_eq_true'] at hc
      rw [ihq hkept' h, List.cons_append, List.cons_append, split_eq_none_of_mayStart htakes hc]
      rfl
  | case5 p => exact split_of_isPlain hp hr (by simp) h

/-! ### Bytes of a lexeme -/

/-- Whether a lexeme of the pattern may hold this byte, as far as its parts tell. -/
def mayHold (b : UInt8) : Pattern → Bool
  | exactly bytes => bytes.contains b
  | one among | many among => among b
  | quotation _ => true
  | notBefore _ => false
  | optional p => p.mayHold b
  | andThen p q | orElse p q => p.mayHold b || q.mayHold b

/-- A lexeme holds only bytes that its pattern may hold (`Pattern.mayHold`). -/
theorem mayHold_of_split {p : Pattern} {b : UInt8} {s a c : List UInt8}
    (h : p.split s = some (a, c)) (hb : b ∈ a) : p.mayHold b = true := by
  induction p generalizing s a c with
  | exactly bytes =>
    obtain ⟨rfl, -⟩ := splitExactly_eq_some_iff.1 h
    simpa [mayHold] using hb
  | one among => cases s <;> grind [split, mayHold]
  | many among =>
    obtain ⟨rfl, -⟩ := Prod.mk.inj (Option.some.inj h)
    exact (List.mem_takeWhile_imp hb : among b = true)
  | quotation mark => rfl
  | notBefore d => grind [split]
  | optional p ih => cases hp : p.split s <;> grind [split, mayHold]
  | andThen p q ihp ihq =>
    obtain ⟨a₁, a₂, rfl, hp, hq⟩ := exists_of_split_andThen h
    rcases List.mem_append.1 hb with hb | hb
    · simp [mayHold, ihp hp hb]
    · simp [mayHold, ihq hq hb]
  | orElse p q ihp ihq => cases hp : p.split s <;> grind [split, mayHold]

/-- Whether the pattern fits in front of this byte nowhere, as far as its parts tell. -/
def refuses (b : UInt8) : Pattern → Bool
  | notBefore c => c == b
  | andThen _ q => q.refuses b
  | _ => false

/-- A pattern that fits in front of a byte nowhere is not followed by it. -/
theorem head_ne_of_refuses {p : Pattern} {b : UInt8} (hp : p.refuses b = true) {s a c : List UInt8}
    (h : p.split s = some (a, c)) : c.head? ≠ some b := by
  induction p generalizing s a c with
  | notBefore d =>
    obtain rfl := beq_iff_eq.1 hp
    rw [split] at h
    split at h
    · cases h
    · rename_i hne
      obtain ⟨-, rfl⟩ := Prod.mk.inj (Option.some.inj h)
      simpa using hne
  | andThen p q _ ihq =>
    obtain ⟨_, _, -, -, hq⟩ := exists_of_split_andThen h
    exact ihq hp hq
  | _ => cases hp

end Pattern

/-! ### Tokens at the front -/

/-- The tokens `us` stand at the front of the bytes `s`, and `rest` is what follows them. -/
def Reads : Nat → List UInt8 → List Token → List UInt8 → Prop
  | _, s, [], rest => s = rest
  | o, s, t :: us, rest => ∃ s₁, Token.read o s = .ok (t, s₁) ∧ t.isEnd = false ∧
      Reads t.stop s₁ us rest

/-- What `Token.read` takes is a gap and a lexeme. -/
theorem Token.exists_of_read {o : Nat} {s s₁ : List UInt8} {t : Token}
    (h : Token.read o s = .ok (t, s₁)) (hend : t.isEnd = false) :
    ∃ gap spelling lexeme, splitGap false s = (gap, lexeme ++ s₁) ∧
      splitLexeme (lexeme ++ s₁) = some (spelling, lexeme, s₁) ∧
      t = ⟨spelling.kind (Utf8.text lexeme), Utf8.text lexeme, o + gap.length,
        o + gap.length + lexeme.length⟩ := by
  unfold Token.read at h
  split at h
  rename_i gap s₀ hgap
  split at h
  · obtain ⟨rfl, -⟩ := Prod.mk.inj (Except.ok.inj h)
    cases hend
  · split at h
    · rename_i spelling lexeme rest hlexeme
      obtain ⟨rfl, rfl⟩ := Prod.mk.inj (Except.ok.inj h)
      obtain ⟨heq, -⟩ := splitLexeme_spec hlexeme
      rw [heq] at hgap hlexeme
      exact ⟨gap, spelling, lexeme, hgap, hlexeme, rfl⟩
    · split at h <;> cases h

/-- `Token.read` gives a lexeme behind a gap as a token. -/
theorem Token.read_of_splitLexeme {o : Nat} {s gap lexeme s₁ : List UInt8} {spelling : Spelling}
    (hgap : splitGap false s = (gap, lexeme ++ s₁))
    (h : splitLexeme (lexeme ++ s₁) = some (spelling, lexeme, s₁)) :
    Token.read o s = .ok (⟨spelling.kind (Utf8.text lexeme), Utf8.text lexeme, o + gap.length,
      o + gap.length + lexeme.length⟩, s₁) := by
  obtain ⟨b, lexeme, rfl⟩ := List.exists_cons_of_ne_nil (splitLexeme_spec h).2
  simp only [Token.read, hgap, List.cons_append] at h ⊢
  simp only [h]

/-- What follows the tokens (`Reads`) is an end of the bytes. -/
theorem Reads.suffix {o : Nat} {s rest : List UInt8} {us : List Token} (h : Reads o s us rest) :
    rest <:+ s := by
  induction us generalizing o s with
  | nil => exact h ▸ List.suffix_refl _
  | cons t us ih =>
    obtain ⟨s₁, hread, hend, hrest⟩ := h
    obtain ⟨gap, _, lexeme, hgap, -, -⟩ := Token.exists_of_read hread hend
    have hs : gap ++ (lexeme ++ s₁) = s := by simpa [hgap] using splitGap_append false s
    rw [← hs, ← List.append_assoc]
    exact (ih hrest).trans (List.suffix_append _ _)

/-- Where tokens end that start at a place. -/
def endOf (o : Nat) (us : List Token) : Nat := (us.getLast?.map Token.stop).getD o

theorem endOf_cons (o : Nat) (t : Token) (us : List Token) :
    endOf o (t :: us) = endOf t.stop us := by
  cases us <;> rfl

/-- All tokens of the bytes are those at the front and those of the rest. -/
theorem Reads.tokensFrom_eq {o : Nat} {s rest : List UInt8} {us : List Token}
    (h : Reads o s us rest) : tokensFrom o s =
      (us ++ (tokensFrom (endOf o us) rest).1, (tokensFrom (endOf o us) rest).2) := by
  induction us generalizing o s with
  | nil =>
    obtain rfl : s = rest := h
    rfl
  | cons t us ih =>
    obtain ⟨s₁, hread, hend, hrest⟩ := h
    rw [tokensFrom_eq_ahead hread, ih hrest, endOf_cons]
    simp [ahead, hend]

/-- Tokens that come first stand at the front. -/
theorem exists_reads {o : Nat} {s : List UInt8} {us vs : List Token}
    (h : (tokensFrom o s).1 = us ++ vs) : ∃ rest, Reads o s us rest := by
  induction us generalizing o s with
  | nil => exact ⟨s, rfl⟩
  | cons t us ih =>
    cases hread : Token.read o s with
    | error e => simp [tokensFrom_of_error hread] at h
    | ok parts =>
      obtain ⟨t', s₁⟩ := parts
      rw [tokensFrom_eq_ahead hread] at h
      cases hend : t'.isEnd with
      | true => simp [ahead, hend] at h
      | false =>
        obtain ⟨rfl, hrest⟩ : t' = t ∧ (tokensFrom t'.stop s₁).1 = us ++ vs := by
          simpa [ahead, hend] using h
        obtain ⟨rest, hreads⟩ := ih hrest
        exact ⟨rest, s₁, hread, hend, hreads⟩

/-- The tokens take the bytes up to their end, and none ends behind it. -/
theorem Reads.endOf_add {o : Nat} {s rest : List UInt8} {us : List Token} (h : Reads o s us rest) :
    endOf o us + rest.length = o + s.length ∧ ∀ t ∈ us, t.stop ≤ endOf o us := by
  induction us generalizing o s with
  | nil =>
    obtain rfl : s = rest := h
    exact ⟨rfl, by simp⟩
  | cons t us ih =>
    obtain ⟨s₁, hread, hend, hrest⟩ := h
    obtain ⟨gap, _, lexeme, hgap, -, ht⟩ := Token.exists_of_read hread hend
    have hlen := congrArg List.length (splitGap_append false s)
    simp only [hgap, List.length_append] at hlen
    have hstop : t.stop = o + gap.length + lexeme.length := by rw [ht]
    obtain ⟨hend, hle⟩ := ih hrest
    rw [endOf_cons]
    refine ⟨by omega, fun u hu => ?_⟩
    rcases List.mem_cons.1 hu with rfl | hu
    · have := hrest.suffix.length_le
      omega
    · exact hle u hu

/-! ### Two colons -/

/-- The bytes of keys, without the colon. -/
def isKeyPart (b : UInt8) : Bool := isNamePart b || b == byte '?' || b == byte '!'

/-- No lexeme starts with parts of a key, or with nothing, and ends with the first one of two
colons. -/
theorem not_splitLexeme_between_colons {spelling : Spelling} {y rest : List UInt8}
    (hy : ∀ b ∈ y, isKeyPart b = true) : splitLexeme (y ++ byte ':' :: byte ':' :: rest) ≠
      some (spelling, y ++ [byte ':'], byte ':' :: rest) := by
  intro h
  cases y with
  | nil =>
    have hdouble : splitLexeme (byte ':' :: byte ':' :: rest) =
        some (.ofMark "::", [byte ':', byte ':'], rest) := rfl
    rw [List.nil_append, hdouble] at h
    cases h
  | cons c y =>
    have hall : Spelling.all.all (fun spelling => !spelling.pattern.mayHold (byte ':') ||
        spelling.pattern.refuses (byte ':') || spelling.pattern.isSingle ||
        allBytes.all fun b => !isKeyPart b || !spelling.pattern.mayStart b) = true := by
      decide +kernel
    obtain ⟨spelling', hmem, hsplit⟩ := List.exists_of_findSome?_eq_some h
    obtain ⟨parts, hparts, heq⟩ := Option.map_eq_some_iff.1 hsplit
    cases heq
    have hcases := List.all_eq_true.1 hall spelling hmem
    simp only [Bool.or_eq_true_iff, Bool.not_eq_true'] at hcases
    rcases hcases with ((hcases | hcases) | hcases) | hcases
    · rw [Pattern.mayHold_of_split hparts (by simp)] at hcases
      cases hcases
    · exact Pattern.head_ne_of_refuses hcases hparts rfl
    · have := Pattern.length_of_isSingle hcases hparts
      simp at this
    · have hc := List.all_eq_true.1 hcases c (mem_allBytes c)
      rw [hy c List.mem_cons_self, Pattern.mayStart_of_split hparts (by simp)] at hc
      cases hc

/-- `splitGap` cuts nothing off in front of a byte that is not blank and no hash sign. -/
theorem splitGap_cons {b : UInt8} (hb : isBlank b = false) (hhash : b ≠ byte '#')
    (s : List UInt8) : splitGap false (b :: s) = ([], b :: s) := by
  simp [splitGap, hb, hhash]

/-- Tokens do not end between two colons that follow parts of a key. -/
theorem not_reads_between_colons {o : Nat} {y rest : List UInt8} {us : List Token}
    (hy : ∀ b ∈ y, isKeyPart b = true) :
    ¬ Reads o (y ++ byte ':' :: byte ':' :: rest) us (byte ':' :: rest) := by
  induction us generalizing o y with
  | nil =>
    intro h
    have := congrArg List.length (h : _ = _)
    rw [List.length_append, List.length_cons] at this
    omega
  | cons t us ih =>
    rintro ⟨s₁, hread, hend, hrest⟩
    obtain ⟨gap, spelling, x, hgap, hlexeme, -⟩ := Token.exists_of_read hread hend
    have hkey : ∀ b : UInt8, isKeyPart b = true → isBlank b = false ∧ b ≠ byte '#' := by
      have hall : allBytes.all (fun b => !isKeyPart b || (!isBlank b && b != byte '#')) = true := by
        decide +kernel
      intro b hb
      simpa [hb] using List.all_eq_true.1 hall b (mem_allBytes b)
    have hnogap : splitGap false (y ++ byte ':' :: byte ':' :: rest) =
        ([], y ++ byte ':' :: byte ':' :: rest) := by
      cases y with
      | nil => rfl
      | cons b y =>
        obtain ⟨hblank, hhash⟩ := hkey b (hy b List.mem_cons_self)
        exact splitGap_cons hblank hhash _
    rw [hnogap] at hgap
    obtain ⟨-, hs⟩ := Prod.mk.inj hgap
    rcases List.append_eq_append_iff.1 hs with ⟨d, rfl, hd⟩ | ⟨d, rfl, rfl⟩
    · match d, hd with
      | [], hd =>
        rw [List.nil_append] at hd
        exact ih (y := []) (by simp) (hd ▸ hrest)
      | [c], hd =>
        obtain ⟨rfl, rfl⟩ := List.cons.inj hd
        exact not_splitLexeme_between_colons hy (by simpa using hlexeme)
      | c :: c' :: d, hd =>
        -- Beyond the second colon there is no way back.
        have hlen := hrest.suffix.length_le
        have := congrArg List.length hd
        simp only [List.length_cons, List.length_append] at hlen this
        omega
    · exact ih (fun b hb => hy b (List.mem_append_right _ hb)) hrest

/-! ### Another rest -/

/-- A lexeme that ends in a colon is cut off without it first. -/
theorem exists_of_split_colon {p : Pattern} {s z c : List UInt8}
    (h : (p >> Spelling.colon).split s = some (z, c)) :
    ∃ y c', z = y ++ [byte ':'] ∧ p.split s = some (y, c') := by
  obtain ⟨y, _, rfl, hy, hcolon⟩ := Pattern.exists_of_split_andThen h
  obtain ⟨_, _, rfl, htext, hnot⟩ := Pattern.exists_of_split_andThen hcolon
  obtain ⟨rfl, -⟩ := Pattern.splitExactly_eq_some_iff.1 htext
  rw [Pattern.split] at hnot
  split at hnot
  · cases hnot
  · obtain ⟨rfl, -⟩ := Prod.mk.inj (Option.some.inj hnot)
    exact ⟨y, _, by simp, hy⟩

/-- A key (`Pattern.watches`) is parts of a key and a colon. -/
theorem exists_of_watches {spelling : Spelling} (hmem : spelling ∈ Spelling.all)
    (hwatches : spelling.pattern.watches = true) {s z c : List UInt8}
    (h : spelling.pattern.split s = some (z, c)) :
    ∃ y, z = y ++ [byte ':'] ∧ ∀ b ∈ y, isKeyPart b = true := by
  have hparts : ∀ {p : Pattern}, allBytes.all (fun b => !p.mayHold b || isKeyPart b) = true →
      ∀ {s y c}, p.split s = some (y, c) → ∀ b ∈ y, isKeyPart b = true := by
    intro p hp s y c hsplit b hb
    simpa [Pattern.mayHold_of_split hsplit hb] using List.all_eq_true.1 hp b (mem_allBytes b)
  have hkeys : Spelling.all.filter (fun spelling => spelling.pattern.watches) =
      [.lowerKey, .upperKey] := rfl
  have hkey : spelling ∈ [.lowerKey, .upperKey] := hkeys ▸ List.mem_filter.2 ⟨hmem, hwatches⟩
  simp only [List.mem_cons, List.not_mem_nil, or_false] at hkey
  rcases hkey with rfl | rfl
  · obtain ⟨a, _, rfl, hname, hrest⟩ := Pattern.exists_of_split_andThen h
    obtain ⟨y, _, rfl, hoptional⟩ := exists_of_split_colon hrest
    refine ⟨a ++ y, by simp, List.forall_mem_append.2 ⟨?_, ?_⟩⟩
    · exact hparts (by decide +kernel) hname
    · exact hparts (by decide +kernel) hoptional
  · obtain ⟨y, _, rfl, hname⟩ := exists_of_split_colon h
    exact ⟨y, rfl, hparts (by decide +kernel) hname⟩

/-- The spellings whose lexemes may start with a byte. -/
def Spelling.startingWith (b : UInt8) : List Spelling :=
  Spelling.all.filter fun spelling => spelling.pattern.mayStart b

/-- No other spellings have to be tried. -/
theorem splitLexeme_cons (b : UInt8) (s : List UInt8) :
    splitLexeme (b :: s) = (Spelling.startingWith b).findSome? fun spelling =>
      (spelling.pattern.split (b :: s)).map fun parts => (spelling, parts) := by
  have htakes : Spelling.all.all (·.pattern.takesByte) = true := by decide
  rw [Spelling.startingWith, splitLexeme]
  generalize Spelling.all = spellings at htakes
  induction spellings with
  | nil => rfl
  | cons spelling spellings ih =>
    rw [List.all_cons, Bool.and_eq_true_iff] at htakes
    rw [List.findSome?_cons, List.filter_cons, ih htakes.2]
    cases hstart : spelling.pattern.mayStart b with
    | true => rw [if_pos rfl, List.findSome?_cons]
    | false =>
      rw [Pattern.split_eq_none_of_mayStart htakes.1 hstart]
      rfl

/-- A lexeme before the seam stays there. -/
theorem Spelling.split_of_eq {spelling : Spelling} (hmem : spelling ∈ Spelling.all)
    {x y r r' : List UInt8} (hr : StopAhead r') (hx : x ≠ [])
    (h : spelling.pattern.split (x ++ y ++ r) = some (x, y ++ r)) :
    spelling.pattern.split (x ++ y ++ r') = some (x, y ++ r') := by
  have hall : Spelling.all.all (fun spelling =>
      spelling.pattern.isPlain true || spelling.pattern.isKept) = true := by decide +kernel
  rcases Bool.or_eq_true_iff.1 (List.all_eq_true.1 hall spelling hmem) with hplain | hkept
  · exact Pattern.split_of_isPlain hplain hr (fun _ => by simp [hx]) h
  · exact Pattern.split_of_isKept hkept hr h

/-- A quotation that is not closed is no token. -/
theorem split_quoted_of_reads {o : Nat} {y r r' : List UInt8} {us : List Token} (hr : StopAhead r')
    (hus : Reads o (y ++ r) us r) (h : Pattern.quoted.split (y ++ r) = none) :
    Pattern.quoted.split (y ++ r') = none := by
  have hquote : allBytes.all (fun b => !Pattern.quoted.mayStart b || b == byte '"' ||
      b == byte '\'') = true := by decide +kernel
  have hnone : ∀ b s, b ≠ byte '"' → b ≠ byte '\'' → Pattern.quoted.split (b :: s) = none := by
    intro b s hdouble hsingle
    refine Pattern.split_eq_none_of_mayStart rfl ?_ s
    simpa [hdouble, hsingle] using List.all_eq_true.1 hquote b (mem_allBytes b)
  cases y with
  | nil =>
    cases r' with
    | nil => rfl
    | cons b r' =>
      have hb := hr.head_mem
      exact hnone b r' (by rintro rfl; revert hb; decide) (by rintro rfl; revert hb; decide)
  | cons b y =>
    by_cases hb : b = byte '"' ∨ b = byte '\''
    · -- There is a token here, and it can be no other than a string.
      cases us with
      | nil =>
        have := congrArg List.length (hus : _ = _)
        simp only [List.length_append, List.length_cons] at this
        omega
      | cons t us =>
        obtain ⟨s₁, hread, hend, -⟩ := hus
        obtain ⟨gap, spelling, x, hgap, hlexeme, -⟩ := Token.exists_of_read hread hend
        have hnogap : splitGap false (b :: y ++ r) = ([], b :: y ++ r) := by
          rcases hb with rfl | rfl
          · rfl
          · rfl
        have hstart : Spelling.startingWith b = [.string] := by
          rcases hb with rfl | rfl
          · rfl
          · rfl
        obtain ⟨-, hs⟩ := Prod.mk.inj (hnogap.symm.trans hgap)
        rw [← hs, List.cons_append, splitLexeme_cons, hstart] at hlexeme
        have hstring : Spelling.string.pattern.split (b :: (y ++ r)) = none := h
        simp [hstring] at hlexeme
    · rw [not_or] at hb
      exact hnone b _ hb.1 hb.2

/-- A colon that starts no symbol in front of one rest starts none in front of the other. -/
theorem split_symbol_of_reads {o : Nat} {y r r' : List UInt8} {us : List Token} (hr : StopAhead r')
    (hus : Reads o (y ++ r) us r)
    (h : Spelling.symbol.pattern.split (byte ':' :: (y ++ r)) = none) :
    Spelling.symbol.pattern.split (byte ':' :: (y ++ r')) = none := by
  have hsymbol : ∀ s, Spelling.symbol.pattern.split (byte ':' :: s) = none ↔
      (Pattern.name isNameStart >> Pattern.optional (Pattern.oneOf "?!=")).split s = none ∧
        Pattern.quoted.split s = none := by
    intro s
    have hcolon : (Pattern.text ":").split (byte ':' :: s) = some ([byte ':'], s) := rfl
    rw [Spelling.symbol, ← Option.or_eq_none_iff]
    exact (Pattern.split_andThen_of_some hcolon).congr_left.trans Option.map_eq_none_iff
  obtain ⟨hname, hquoted⟩ := (hsymbol _).1 h
  refine (hsymbol _).2 ⟨?_, split_quoted_of_reads hr hus hquoted⟩
  have hplain : (Pattern.name isNameStart >> Pattern.optional (Pattern.oneOf "?!=")).isPlain false =
      true := by decide
  cases Pattern.seam (r := r) hplain hr (by simp) with
  | same _ hsome _ =>
    rw [hname] at hsome
    cases hsome
  | neither _ hnone => exact hnone
  | beyond hsome _ _ _ =>
    rw [hname] at hsome
    cases hsome
  | colon hwatches _ _ _ => cases hwatches

/-- The kinds of tokens that a bracket of a tag may be the start of. -/
def Kind.opensBracket (kind : Kind) : Bool :=
  kind == .operator || ["\x7b", "(", "[", "<", "|"].any fun mark => kind == .mark mark

/-- Whether the tokens start like a tag that is not closed. -/
def opensTag : List Token → Bool
  | t :: u :: v :: _ => t.kind == .mark "%" && u.kind == .lowerName && v.kind.opensBracket
  | _ => false

/-- `opensTag` holds only of a per cent sign. -/
theorem opensTag_cons {t : Token} (h : t.kind ≠ .mark "%") (us : List Token) :
    opensTag (t :: us) = false := by
  rcases us with _ | ⟨u, _ | ⟨v, us⟩⟩
  · rfl
  · rfl
  · simp [opensTag, h]

/-- The first token of bytes that start with no gap. -/
theorem Reads.exists_cons {o : Nat} {b : UInt8} {s rest : List UInt8} {us : List Token}
    (h : Reads o (b :: s) us rest) (hlen : rest.length ≤ s.length) (hblank : isBlank b = false)
    (hhash : b ≠ byte '#') : ∃ u us' o' s₁ lexeme, us = u :: us' ∧ Reads o' s₁ us' rest ∧
      ∃ spelling ∈ Spelling.startingWith b, spelling.pattern.split (b :: s) = some (lexeme, s₁) ∧
        u.kind = spelling.kind (Utf8.text lexeme) := by
  cases us with
  | nil =>
    have := congrArg List.length (h : _ = _)
    rw [List.length_cons] at this
    omega
  | cons u us =>
    obtain ⟨s₁, hread, hend, hrest⟩ := h
    obtain ⟨gap, spelling, lexeme, hgap, hlexeme, rfl⟩ := Token.exists_of_read hread hend
    obtain ⟨-, hs⟩ := Prod.mk.inj ((splitGap_cons hblank hhash s).symm.trans hgap)
    rw [← hs, splitLexeme_cons] at hlexeme
    obtain ⟨_, hmem, hsplit⟩ := List.exists_of_findSome?_eq_some hlexeme
    obtain ⟨_, hparts, heq⟩ := Option.map_eq_some_iff.1 hsplit
    cases heq
    exact ⟨_, us, _, s₁, lexeme, rfl, hrest, spelling, hmem, hparts, rfl⟩

/-- The brackets of tags. -/
def brackets : List Char := ['\x7b', '(', '[', '<', '|']

/-- Something holds of all `brackets` if it holds of each of the five. -/
theorem forall_brackets {P : Char → Prop} :
    (∀ c ∈ brackets, P c) ↔ P '\x7b' ∧ P '(' ∧ P '[' ∧ P '<' ∧ P '|' := by
  simp [brackets]

/-- The token that starts with a bracket. -/
theorem opensBracket_of_reads {o : Nat} {c : Char} {s rest : List UInt8} {us : List Token}
    (hc : c ∈ brackets) (h : Reads o (byte c :: s) us rest) (hlen : rest.length ≤ s.length) :
    ∃ u us', us = u :: us' ∧ u.kind.opensBracket = true := by
  have hplain : ∀ c ∈ brackets, isBlank (byte c) = false ∧ byte c ≠ byte '#' ∧
      Spelling.startingWith (byte c) ⊆ [.operator, .mark] := by
    have hmark : [Spelling.mark] ⊆ [.operator, .mark] := List.subset_cons_self ..
    refine forall_brackets.2 ⟨?_, ?_, ?_, ?_, ?_⟩
    · exact ⟨rfl, by decide, hmark⟩
    · exact ⟨rfl, by decide, hmark⟩
    · exact ⟨rfl, by decide, hmark⟩
    · exact ⟨rfl, by decide, List.Subset.refl _⟩
    · exact ⟨rfl, by decide, hmark⟩
  have hmarks : ∀ c ∈ brackets, Utf8.text [byte c] = String.singleton c ∧
      (Kind.mark (String.singleton c)).opensBracket = true :=
    forall_brackets.2 ⟨⟨Utf8.text_encode ['\x7b'], rfl⟩, ⟨Utf8.text_encode ['('], rfl⟩,
      ⟨Utf8.text_encode ['['], rfl⟩, ⟨Utf8.text_encode ['<'], rfl⟩, ⟨Utf8.text_encode ['|'], rfl⟩⟩
  obtain ⟨hblank, hhash, hstart⟩ := hplain c hc
  obtain ⟨u, us', _, s₁, lexeme, rfl, -, spelling, hmem, hsplit, hkind⟩ :=
    h.exists_cons hlen hblank hhash
  refine ⟨u, us', rfl, ?_⟩
  have hspelling := hstart hmem
  simp only [List.mem_cons, List.not_mem_nil, or_false] at hspelling
  rcases hspelling with rfl | rfl
  · rw [hkind]
    rfl
  · obtain ⟨b, rfl⟩ := List.length_eq_one_iff.1 (Pattern.length_of_isSingle rfl hsplit)
    obtain ⟨rfl, -⟩ := List.cons.inj (Pattern.eq_append_of_split hsplit)
    rw [hkind, (hmarks c hc).1]
    exact (hmarks c hc).2

/-- A tag starts with a per cent sign, a letter and a bracket. -/
theorem exists_bracket_of_split {s : List UInt8}
    (h : Spelling.tag.pattern.split (byte '%' :: s) ≠ none) :
    ∃ c ∈ brackets, ∃ s', s = byte 'a' :: byte c :: s' := by
  obtain ⟨parts, hparts⟩ := Option.ne_none_iff_exists'.1 h
  obtain ⟨_, bracketed, -, htext, hbracketed⟩ := Pattern.exists_of_split_andThen hparts
  obtain ⟨rfl, heq⟩ := Pattern.splitExactly_eq_some_iff.1 htext
  obtain ⟨b, bracketed, rfl⟩ := List.exists_cons_of_ne_nil (Pattern.ne_nil_of_split rfl hbracketed)
  have hall : allBytes.all (fun b => !(Pattern.text "\x7b" >> Pattern.upTo '\x7d' <|>
      Pattern.text "(" >> Pattern.upTo ')' <|> Pattern.text "[" >> Pattern.upTo ']' <|>
      Pattern.text "<" >> Pattern.upTo '>' <|> Pattern.text "|" >> Pattern.upTo '|').mayStart b ||
      (brackets.map byte).contains b) = true := by decide +kernel
  have hstart := Pattern.mayStart_of_split hbracketed (List.cons_ne_nil b _)
  have hb := List.all_eq_true.1 hall b (mem_allBytes b)
  rw [hstart, Bool.not_true, Bool.false_or, List.contains_iff_mem] at hb
  obtain ⟨c, hc, rfl⟩ := List.mem_map.1 hb
  exact ⟨c, hc, bracketed ++ parts.2, by simpa using heq⟩

/-- Where a tag is read if more bytes follow, the tokens start like one that is not closed. -/
theorem opensTag_of_split {o : Nat} {y r r' : List UInt8} {t : Token} {us : List Token}
    (hr : StopAhead r') (ht : t.kind = .mark "%") (hus : Reads o (y ++ r) us r)
    (h : Spelling.tag.pattern.split (byte '%' :: (y ++ r')) ≠ none) :
    opensTag (t :: us) = true := by
  obtain ⟨c, hc, s', hy⟩ := exists_bracket_of_split h
  -- The letter and the bracket end no lexeme, so they stand among the tokens.
  have hbrackets : ∀ c ∈ brackets, byte c ∉ stops := forall_brackets.2 (by decide)
  obtain ⟨y, rfl⟩ : ∃ y', y = byte 'a' :: byte c :: y' := by
    rcases y with _ | ⟨_, _ | ⟨_, y'⟩⟩
    · exact absurd (hr (byte 'a') (congrArg List.head? hy :)) (by decide)
    · obtain ⟨-, hy⟩ := List.cons.inj hy
      exact absurd (hr (byte c) (congrArg List.head? hy :)) (hbrackets c hc)
    · simp only [List.cons_append, List.cons.injEq] at hy
      exact ⟨y', by rw [hy.1, hy.2.1]⟩
  have hletter : ∀ c ∈ brackets,
      Spelling.lowerKey.pattern.split (byte 'a' :: byte c :: (y ++ r)) = none ∧
      Spelling.lowerName.pattern.split (byte 'a' :: byte c :: (y ++ r)) =
        some ([byte 'a'], byte c :: (y ++ r)) :=
    forall_brackets.2 ⟨⟨rfl, rfl⟩, ⟨rfl, rfl⟩, ⟨rfl, rfl⟩, ⟨rfl, rfl⟩, ⟨rfl, rfl⟩⟩
  rw [List.cons_append, List.cons_append] at hus
  have hafter : r.length ≤ (byte c :: (y ++ r)).length := by
    rw [List.length_cons, List.length_append]
    omega
  obtain ⟨u, us, _, s₁, lexeme, rfl, hus, spelling, hmem, hsplit, hu⟩ :=
    Reads.exists_cons hus hafter rfl (by decide)
  obtain rfl | rfl : spelling = .lowerKey ∨ spelling = .lowerName := by
    have hstart : Spelling.startingWith (byte 'a') = [.lowerKey, .lowerName] := rfl
    simpa [hstart] using hmem
  · rw [(hletter c hc).1] at hsplit
    cases hsplit
  · obtain ⟨rfl, rfl⟩ := Prod.mk.inj (Option.some.inj ((hletter c hc).2.symm.trans hsplit))
    obtain ⟨v, us, rfl, hv⟩ := opensBracket_of_reads hc hus (by simp)
    have hname : u.kind = .lowerName := by
      rw [hu, show Utf8.text [byte 'a'] = "a" from Utf8.text_encode ['a']]
      rfl
    simp [opensTag, ht, hname, hv]

/-- A spelling that was tried in vain before the one that fits is tried in vain again. -/
theorem split_eq_none_of_reads {o o' : Nat} {b : UInt8} {x y r r' : List UInt8} {t : Token}
    {us : List Token} {spelling spelling' : Spelling} {earlier later : List Spelling}
    (hstart : Spelling.startingWith b = earlier ++ spelling :: later) (hmem : spelling' ∈ earlier)
    (hsplit : spelling.pattern.split (b :: x ++ y ++ r) = some (b :: x, y ++ r))
    (hsplit' : spelling'.pattern.split (b :: x ++ y ++ r) = none)
    (hall : Reads o (b :: x ++ y ++ r) (t :: us) r) (hus : Reads o' (y ++ r) us r)
    (hkind : t.kind = spelling.kind (Utf8.text (b :: x))) (hopen : opensTag (t :: us) = false)
    (hr : StopAhead r') :
    spelling'.pattern.split (b :: x ++ y ++ r') = none := by
  have hmem' : spelling' ∈ Spelling.startingWith b := by simp [hstart, hmem]
  obtain ⟨hmem'', hb⟩ := List.mem_filter.1 hmem'
  cases hplain : spelling'.pattern.isPlain true with
  | true =>
    cases Pattern.seam (r := r) hplain hr (x := b :: x ++ y) (fun _ => by simp) with
    | same _ hsome _ =>
      rw [hsplit'] at hsome
      cases hsome
    | neither _ hnone => exact hnone
    | beyond hsome _ _ _ =>
      rw [hsplit'] at hsome
      cases hsome
    | colon hwatches hhead _ hsome =>
      obtain ⟨z, hz, hkey⟩ := exists_of_watches hmem'' hwatches hsome
      cases r with
      | nil => cases hhead
      | cons c r =>
        obtain rfl : c = byte ':' := by simpa using hhead
        rw [hz, List.append_assoc] at hall
        exact absurd hall (not_reads_between_colons hkey)
  | false =>
    have hinvolved : Spelling.all.all (fun spelling => spelling.pattern.isPlain true ||
        allBytes.all fun b => !spelling.pattern.mayStart b ||
          [byte '%', byte ':', byte '"', byte '\''].contains b) = true := by
      decide +kernel
    have := List.all_eq_true.1 hinvolved spelling' hmem''
    rw [hplain, Bool.false_or] at this
    have := List.all_eq_true.1 this b (mem_allBytes b)
    simp only [hb, Bool.not_true, Bool.false_or, List.contains_iff_mem, List.mem_cons,
      List.not_mem_nil, or_false] at this
    rcases this with rfl | rfl | rfl | rfl
    · have hpercent : Spelling.startingWith (byte '%') = [.tag, .mark] := rfl
      rw [hpercent] at hstart
      match earlier, hstart with
      | [_], hstart =>
        obtain ⟨rfl, rfl, -⟩ : Spelling.tag = _ ∧ Spelling.mark = spelling ∧ _ := by
          simpa using hstart
        obtain rfl : x = [] := by simpa using Pattern.length_of_isSingle rfl hsplit
        obtain rfl := List.mem_singleton.1 hmem
        by_contra htag
        have ht : t.kind = .mark "%" := hkind.trans (congrArg Kind.mark (Utf8.text_encode ['%']))
        rw [opensTag_of_split hr ht hus htag] at hopen
        contradiction
      | _ :: _ :: _, hstart => simp at hstart
    · have hcolon : Spelling.startingWith (byte ':') = [.ofMark "::", .symbol, .mark] := rfl
      rw [hcolon] at hstart
      match earlier, hstart with
      | [_], hstart =>
        obtain ⟨rfl, -⟩ : Spelling.ofMark "::" = _ ∧ _ := by simpa using hstart
        obtain rfl := List.mem_singleton.1 hmem
        cases hplain
      | [_, _], hstart =>
        obtain ⟨rfl, rfl, rfl, -⟩ : Spelling.ofMark "::" = _ ∧ Spelling.symbol = _ ∧
            Spelling.mark = spelling ∧ _ := by simpa using hstart
        obtain rfl : x = [] := by simpa using Pattern.length_of_isSingle rfl hsplit
        simp only [List.mem_cons, List.not_mem_nil, or_false] at hmem
        rcases hmem with rfl | rfl
        · cases hplain
        · exact split_symbol_of_reads hr hus hsplit'
      | _ :: _ :: _ :: _, hstart => simp at hstart
    · have hquote : Spelling.startingWith (byte '"') = [.string] := rfl
      rw [hquote] at hstart
      cases earlier <;> simp_all
    · have hquote : Spelling.startingWith (byte '\'') = [.string] := rfl
      rw [hquote] at hstart
      cases earlier <;> simp_all

/-- A lexeme in front of tokens stays the same when what follows these is changed. -/
theorem splitLexeme_reseam {o o' : Nat} {x y r r' : List UInt8} {t : Token} {us : List Token}
    {spelling : Spelling} (h : splitLexeme (x ++ y ++ r) = some (spelling, x, y ++ r))
    (hall : Reads o (x ++ y ++ r) (t :: us) r) (hus : Reads o' (y ++ r) us r)
    (hkind : t.kind = spelling.kind (Utf8.text x)) (hopen : opensTag (t :: us) = false)
    (hr : StopAhead r') :
    splitLexeme (x ++ y ++ r') = some (spelling, x, y ++ r') := by
  obtain ⟨-, hne⟩ := splitLexeme_spec h
  obtain ⟨b, x, rfl⟩ := List.exists_cons_of_ne_nil hne
  rw [List.cons_append, List.cons_append, splitLexeme_cons] at h ⊢
  obtain ⟨earlier, spelling', later, hstart, hsplit, hearlier⟩ := List.findSome?_eq_some_iff.1 h
  obtain ⟨parts, hsplit, heq⟩ := Option.map_eq_some_iff.1 hsplit
  cases heq
  have hmem : spelling ∈ Spelling.startingWith b := by simp [hstart]
  refine List.findSome?_eq_some_iff.2
    ⟨earlier, spelling, later, hstart, ?_, fun spelling' hspelling' => ?_⟩
  · rw [← List.cons_append, ← List.cons_append,
      Spelling.split_of_eq (List.mem_filter.1 hmem).1 hr hne hsplit]
    rfl
  · have hnone := Option.map_eq_none_iff.1 (hearlier spelling' hspelling')
    rw [← List.cons_append, ← List.cons_append,
      split_eq_none_of_reads hstart hspelling' hsplit hnone hall hus hkind hopen hr]
    rfl

/-- `splitGap` ends where it did. -/
theorem splitGap_of_eq {inComment : Bool} {gap s : List UInt8} {b : UInt8}
    (h : splitGap inComment (gap ++ b :: s) = (gap, b :: s)) (s' : List UInt8) :
    splitGap inComment (gap ++ b :: s') = (gap, b :: s') := by
  induction gap generalizing inComment with
  | nil => grind [splitGap]
  | cons c gap ih =>
    have hstep : ∀ {inside : Bool}, (c :: (splitGap inside (gap ++ b :: s)).1,
        (splitGap inside (gap ++ b :: s)).2) = (c :: gap, b :: s) →
        (c :: (splitGap inside (gap ++ b :: s')).1, (splitGap inside (gap ++ b :: s')).2) =
          (c :: gap, b :: s') := by
      intro inside hparts
      obtain ⟨hgap, hrest⟩ := Prod.mk.inj hparts
      rw [ih (Prod.ext (List.cons.inj hgap).2 hrest)]
    simp only [List.cons_append, splitGap] at h ⊢
    split
    · exact hstep (by simpa [*] using h)
    split
    · exact hstep (by simpa [*] using h)
    · simp [*] at h

/-- A gap ends every lexeme in front of it. -/
theorem stopAhead_of_splitGap {s gap rest : List UInt8} (h : splitGap false s = (gap, rest))
    (hrest : gap = [] → StopAhead rest) : StopAhead s := by
  cases s with
  | nil => simp [StopAhead]
  | cons b s =>
    intro c hc
    obtain rfl : b = c := by simpa using hc
    rw [splitGap, if_neg (by simp)] at h
    split at h
    · rename_i hgap
      simp only [isBlank, Bool.or_eq_true, beq_iff_eq] at hgap
      rcases hgap with (((rfl | rfl) | rfl) | rfl) | rfl
      all_goals decide
    · obtain ⟨rfl, rfl⟩ := Prod.mk.inj h
      exact hrest rfl b rfl

/-- **Tokens in front of another rest.** Tokens among which no tag opens stay the same, if nothing
follows them or something that ends every lexeme. -/
theorem Reads.reseam_of_opensTag {o : Nat} {d r r' : List UInt8} {us : List Token}
    (h : Reads o (d ++ r) us r) (hus : ∀ vs, vs <:+ us → opensTag vs = false) (hr : StopAhead r') :
    Reads o (d ++ r') us r' := by
  induction us generalizing o d with
  | nil =>
    obtain rfl : d = [] := by simpa [Reads] using h
    rfl
  | cons t us ih =>
    obtain ⟨s₁, hread, hend, hrest⟩ := h
    obtain ⟨y, rfl⟩ := hrest.suffix
    obtain ⟨gap, spelling, x, hgap, hlexeme, ht⟩ := Token.exists_of_read hread hend
    obtain rfl : d = gap ++ x ++ y := by
      have heq := splitGap_append false (d ++ r)
      simp only [hgap, ← List.append_assoc] at heq
      exact (List.append_cancel_right heq).symm
    -- Behind the gap the same tokens stand at the front.
    have hwhole : Reads (o + gap.length) (x ++ y ++ r) (t :: us) r := by
      refine ⟨_, ?_, hend, hrest⟩
      have hskip := Token.read_splitGap o (gap ++ x ++ y ++ r)
      rwa [hgap, hread, ← List.append_assoc] at hskip
    have hkind : t.kind = spelling.kind (Utf8.text x) := by rw [ht]
    rw [← List.append_assoc] at hlexeme
    have hlexeme' :=
      splitLexeme_reseam hlexeme hwhole hrest hkind (hus _ (List.suffix_refl _)) hr
    obtain ⟨b, x, rfl⟩ := List.exists_cons_of_ne_nil (splitLexeme_spec hlexeme).2
    have hgap' : splitGap false (gap ++ b :: x ++ y ++ r') = (gap, b :: x ++ (y ++ r')) := by
      simp only [List.append_assoc, List.cons_append] at hgap ⊢
      exact splitGap_of_eq hgap _
    refine ⟨y ++ r', ?_, hend, ih hrest fun vs hvs => hus vs (hvs.trans (List.suffix_cons t us))⟩
    rw [ht]
    exact Token.read_of_splitLexeme hgap' (by rwa [← List.append_assoc])

/-- Tokens without per cent signs stay the same. -/
theorem Reads.reseam {o : Nat} {d r r' : List UInt8} {us : List Token} (h : Reads o (d ++ r) us r)
    (hus : ∀ t ∈ us, t.kind ≠ .mark "%") (hr : StopAhead r') : Reads o (d ++ r') us r' := by
  refine h.reseam_of_opensTag (fun vs hvs => ?_) hr
  cases vs with
  | nil => rfl
  | cons t vs => exact opensTag_cons (hus t (hvs.subset List.mem_cons_self)) vs

end TypeNotes.Signature
