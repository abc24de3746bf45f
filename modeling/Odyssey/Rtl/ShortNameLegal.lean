import Odyssey.Rtl.ShortName

/-! Which of the generated short names `RtlIsNameLegalDOS8Dot3` accepts. -/
namespace Odyssey.Rtl.ShortName
open List

def dosIllegals : List OemChar :=
  [0x2A,0x3F,0x3C,0x3E,0x7C,0x22,0x2B,0x3D,0x2C,0x3B,0x5B,0x5D,0x3A,0x2F,0x5C,0xE5]

def legalLoop : Nat → Option Nat → Bool → List OemChar → Option (Option Nat × Bool)
  | _, dotAt, gotSpace, [] => some (dotAt, gotSpace)
  | i, dotAt, gotSpace, c::l =>
    if c=0x20 then
      if i=0 ∨ l=[] ∨ l.head?=some 0x2E then none else legalLoop (i+1) dotAt true l
    else if c=0x2E then
      if dotAt.isSome then none else legalLoop (i+1) (some i) gotSpace l
    else if strchr dosIllegals c then none
    else legalLoop (i+1) dotAt gotSpace l

/-- What `RtlIsNameLegalDOS8Dot3` says about a string of the code page: `none` if it is not legal,
and otherwise `SpacesFound`. -/
def isOemNameLegal (s : List OemChar) : Option Bool :=
  if s=[] ∨ 12<s.length then none
  else if s.head?=some 0x2E then
    if s.length≠1 ∧ (s.length≠2 ∨ s[1]?≠some 0x2E) then none else some false
  else
    (legalLoop 0 none false s).bind fun r =>
      match r.1 with
      | none => if 8<s.length then none else some r.2
      | some d =>
        if 8<d ∨ 4<s.length-d ∨ d=s.length-1 then none else some r.2

def rtlIsNameLegalDOS8Dot3 (cp : CodePage) (name : List WChar) : Option Bool :=
  (cp.upcaseStringToCountedOem name).bind isOemNameLegal

/-- The code page has the printable characters of ASCII. -/
structure CodePage.Ascii (cp : CodePage) : Prop where
  char : ∀ w : WChar, w.toNat<0x7F → cp.upcaseUnicodeToOem w=(1, asciiUpper w)
  string : ∀ s : List WChar, s.length≤12 → (∀ w∈s, 0x20≤w.toNat ∧ w.toNat<0x7F ∧ w≠0x3F) →
    cp.upcaseStringToCountedOem s=some (s.map asciiUpper)

/-- A printable character of ASCII that is legal in long names: not one of `"*/:<>?\|` -/
def LegalLong (w : WChar) : Prop :=
  0x20≤w.toNat ∧ w.toNat<0x7F ∧ w∉([0x22,0x2A,0x2F,0x3A,0x3C,0x3E,0x3F,0x5C,0x7C] : List WChar)

instance (w : WChar) : Decidable (LegalLong w) := inferInstanceAs (Decidable (_ ∧ _ ∧ _))

def Plain (w : WChar) : Prop :=
  0x20≤w.toNat ∧ w.toNat<0x7F ∧ w≠0x3F ∧ asciiUpper w≠0x20 ∧ asciiUpper w≠0x2E ∧
    strchr dosIllegals (asciiUpper w)=false

instance (w : WChar) : Decidable (Plain w) := inferInstanceAs (Decidable (_ ∧ _ ∧ _ ∧ _ ∧ _ ∧ _))

section Characters
variable {cp : CodePage} {w : WChar} {l : List WChar}

/-- What the two loops make of a character. -/
theorem plain_of_legalLong (hw : LegalLong w) :
    w=dot ∨ Plain ((asciiUpper w).signExtend 16) ∨
      rtlpIsShortIllegal (asciiUpper w)=true ∧ rtlpIsShortIllegal (w.setWidth 8)=true := by
  have h : ∀ n<128, LegalLong (BitVec.ofNat 16 n) → BitVec.ofNat 16 n=dot ∨
      Plain ((asciiUpper (BitVec.ofNat 16 n)).signExtend 16) ∨
        rtlpIsShortIllegal (asciiUpper (BitVec.ofNat 16 n))=true ∧
        rtlpIsShortIllegal ((BitVec.ofNat 16 n).setWidth 8)=true := by decide +kernel
  have hchar := h w.toNat (Nat.lt_trans hw.2.1 (by decide))
  rw [BitVec.ofNat_toNat] at hchar
  exact hchar hw

theorem plain_underscore : Plain underscore := by decide

theorem copyName_plain (hcp : cp.Ascii) (hl : ∀ w∈l, LegalLong w) (n : Nat) :
    ∀ w∈copyName cp l n, Plain w := by
  induction l generalizing n with
  | nil => exact fun w hw => absurd hw not_mem_nil
  | cons c l ih =>
    cases n with
    | zero => exact fun w hw => absurd hw not_mem_nil
    | succ n =>
      have hc := hl c mem_cons_self
      have hrest := ih fun w hw => hl w (mem_cons_of_mem c hw)
      rw [copyName,hcp.char c hc.2.1]
      simp only [ne_eq,not_true_eq_false,false_or]
      split
      · exact forall_mem_cons.mpr ⟨plain_underscore,hrest n⟩
      · rename_i hlegal
        split
        · rename_i hdot
          obtain rfl | hplain | ⟨hillegal,-⟩ := plain_of_legalLong hc
          · exact absurd (by decide) hdot
          · exact forall_mem_cons.mpr ⟨hplain,hrest n⟩
          · exact absurd (.inr hillegal) hlegal
        · exact hrest (n+1)

theorem copyExtension_plain (hcp : cp.Ascii) (hl : ∀ w∈l, LegalLong w) (hdot : dot∉l) (n : Nat) :
    ∀ w∈copyExtension cp l n, Plain w := by
  induction l generalizing n with
  | nil => exact fun w hw => absurd hw not_mem_nil
  | cons c l ih =>
    cases n with
    | zero => exact fun w hw => absurd hw not_mem_nil
    | succ n =>
      have hc := hl c mem_cons_self
      obtain ⟨hne,hdot⟩ := not_or.mp (mem_cons.not.mp hdot)
      have hrest := ih (fun w hw => hl w (mem_cons_of_mem c hw)) hdot n
      rw [copyExtension,hcp.char c hc.2.1]
      simp only [ne_eq,not_true_eq_false,false_or]
      split
      · exact forall_mem_cons.mpr ⟨plain_underscore,hrest⟩
      · rename_i hlegal
        obtain rfl | hplain | ⟨-,hillegal⟩ := plain_of_legalLong hc
        · exact absurd rfl hne
        · exact forall_mem_cons.mpr ⟨hplain,hrest⟩
        · exact absurd (.inr hillegal) hlegal

theorem length_copyExtension (cp : CodePage) (l : List WChar) (n : Nat) :
    (copyExtension cp l n).length=min l.length n := by
  induction l generalizing n with
  | nil => simp [copyExtension]
  | cons c l ih =>
    cases n with
    | zero => simp [copyExtension]
    | succ n =>
      rw [copyExtension]
      split
      · rw [length_cons,length_cons,ih]
        omega
      · rw [length_cons,length_cons,ih]
        omega

theorem indexPart_plain (c : Counter) : ∀ w∈indexPart c, Plain w := by
  refine forall_mem_cons.mpr ⟨by decide,fun w hw => ?_⟩
  obtain ⟨d,hd,rfl⟩ := mem_writeDigits (by decide) hw
  have hdigit : ∀ d<10, Plain (decimalDigit d) := by decide
  exact hdigit d hd

theorem checkSumDigits_plain (checksum : BitVec 16) : ∀ w∈checkSumDigits checksum, Plain w := by
  intro w hw
  obtain ⟨d,hd,rfl⟩ := mem_writeDigits (by decide) hw
  have hdigit : ∀ d<16, Plain (hexDigit d) := by decide
  exact hdigit d hd

/-- What stands before the dot of a short name. -/
theorem stem_indexPart_plain (hl : ∀ w∈l, Plain w) (c : Counter) :
    ∀ w∈stem l c++indexPart c, Plain w := by
  intro w hw
  obtain hw | hw := mem_append.mp hw
  · obtain hw | hw := mem_append.mp hw
    · exact hl w (mem_of_mem_take hw)
    · split at hw
      · exact checkSumDigits_plain _ w hw
      · exact absurd hw not_mem_nil
  · exact indexPart_plain c w hw

theorem length_stem_indexPart {c : Counter} (hc : c.Valid) (l : List WChar) :
    (stem l c++indexPart c).length≤8 := by
  have hlength : rtlpGetIndexLength c.lastIndexValue≤3 := by
    rw [rtlpGetIndexLength_eq hc.index]
    split
    · omega
    · split <;> omega
  rw [length_append,indexPart,length_cons,length_writeDigits,stem,length_append,
    length_take,copyLength]
  split
  · rw [checkSumDigits,length_writeDigits]
    omega
  · rw [length_nil]
    omega

end Characters

theorem lastDot_cases (l : List WChar) (i d : Nat) :
    dot∉l ∧ lastDot l i d=d ∨
      ∃ A B, l=A++dot::B ∧ dot∉B ∧ lastDot l i d=i+A.length := by
  induction l generalizing i d with
  | nil => exact .inl ⟨not_mem_nil,rfl⟩
  | cons c l ih =>
    rw [lastDot]
    obtain ⟨hnot,hlast⟩ | ⟨A,B,rfl,hB,hlast⟩ := ih (i+1) (if c=dot then i else d)
    · by_cases hc : c=dot
      · exact .inr ⟨[],l,by rw [hc]; rfl,hnot,by rw [hlast,if_pos hc]; rfl⟩
      · refine .inl ⟨?_,by rw [hlast,if_neg hc]⟩
        exact mem_cons.not.mpr (not_or.mpr ⟨Ne.symm hc,hnot⟩)
    · exact .inr ⟨c::A,B,rfl,hB,by rw [length_cons]; omega⟩

/-- The extension of a name without a dot is empty; otherwise it begins with the last dot. -/
theorem extension_cases {cp : CodePage} (hcp : cp.Ascii) (name : List WChar) :
    dot∉name ∧ extension cp name=[] ∨
      ∃ A B, name=A++dot::B ∧ dot∉B ∧ extension cp name=dot::copyExtension cp B 3 := by
  obtain ⟨hnot,hpos⟩ | ⟨A,B,heq,hB,hpos⟩ := lastDot_cases name 0 name.length
  · refine .inl ⟨hnot,?_⟩
    rw [extension,dotPos,hpos,drop_length]
    rfl
  · refine .inr ⟨A,B,heq,hB,?_⟩
    rw [extension,dotPos,hpos,Nat.zero_add]
    rw [heq,drop_left,copyExtension,hcp.char dot (by decide)]
    rfl

section Check
variable {i : Nat} {dotAt : Option Nat} {gotSpace : Bool} {l r : List WChar}

/-- The loop goes over plain characters. -/
theorem legalLoop_plain (hl : ∀ w∈l, Plain w) (rest : List OemChar) :
    legalLoop i dotAt gotSpace (l.map asciiUpper++rest) =
      legalLoop (i+l.length) dotAt gotSpace rest := by
  induction l generalizing i with
  | nil => rfl
  | cons w l ih =>
    obtain ⟨⟨-,-,-,hspace,hdot,hlegal⟩,hrest⟩ := forall_mem_cons.mp hl
    rw [map_cons,cons_append,legalLoop,if_neg hspace,if_neg hdot,
      if_neg (by rw [hlegal]; simp),ih hrest,length_cons]
    congr 1
    omega

/-- The loop goes over the dot and plain characters behind it. -/
theorem legalLoop_dot (hr : ∀ w∈r, Plain w) :
    legalLoop i none gotSpace ((dot::r).map asciiUpper)=some (some i, gotSpace) := by
  have hdot : asciiUpper dot=0x2E := by decide
  have hrest := @legalLoop_plain (i+1) (some i) gotSpace r hr []
  rw [append_nil] at hrest
  rw [map_cons,hdot,legalLoop,if_pos rfl,hrest]
  rfl

section
variable (hl : ∀ w∈l, Plain w) (hne : l≠[])
include hl hne

theorem head_plain (rest : List OemChar) : (l.map asciiUpper++rest).head?≠some 0x2E := by
  cases l with
  | nil => exact absurd rfl hne
  | cons w l =>
    have hdot := (hl w mem_cons_self).2.2.2.2.1
    exact fun h => hdot (Option.some.inj h)

/-- A name of plain characters is legal if it is short enough. -/
theorem isOemNameLegal_plain (hlength : l.length≤8) :
    isOemNameLegal (l.map asciiUpper)=some false := by
  have hloop := @legalLoop_plain 0 none false l hl []
  have hhead := head_plain hl hne []
  have hshort : ¬ (l.map asciiUpper=[] ∨ 12<(l.map asciiUpper).length) := by
    rw [map_eq_nil_iff,length_map,not_or]
    exact ⟨hne,by omega⟩
  rw [append_nil] at hloop hhead
  rw [isOemNameLegal,if_neg hshort,if_neg hhead,hloop]
  simp only [legalLoop,Option.bind_some,length_map]
  rw [if_neg (by omega)]

/-- With an extension it is legal if there is something behind the dot. -/
theorem isOemNameLegal_extension (hlength : l.length≤8)
    (hr : ∀ w∈r, Plain w) (hrlength : r.length≤3) :
    (isOemNameLegal ((l++dot::r).map asciiUpper)).isSome ↔ r≠[] := by
  have hlen : ((l++dot::r).map asciiUpper).length=l.length+(r.length+1) := by simp
  rw [isOemNameLegal,hlen,map_append,if_neg (by simp [hne]; omega),if_neg (head_plain hl hne _),
    legalLoop_plain hl,legalLoop_dot hr]
  simp only [Option.bind_some,Nat.zero_add]
  cases r with
  | nil =>
    simp
  | cons w r =>
    rw [length_cons] at hrlength ⊢
    rw [if_neg (by omega)]
    simp

end

end Check

/-- The short name for a long name of printable characters has at most twelve characters, and
`RtlIsNameLegalDOS8Dot3` accepts it unless the long name ends in a dot: then the short name does
too. -/
theorem generated_legal_iff (cp : CodePage) (names : List (List WChar)) (name : List WChar)
    (hcp : cp.Ascii) (hname : ∀ w∈name, LegalLong w) :
    ((rtlGenerate8dot3Name cp name (contextAfter cp zeroContext names)).2.length≤12 ∧
        (rtlIsNameLegalDOS8Dot3 cp
          (rtlGenerate8dot3Name cp name (contextAfter cp zeroContext names)).2).isSome=true) ↔
      name.getLast?≠some dot := by
  let c := nextCounter cp (contextAfter cp zeroContext names) name
  have hc : c.Valid := valid_nextCounter cp _ name
  change ((shortName cp name c).length≤12 ∧
    (rtlIsNameLegalDOS8Dot3 cp (shortName cp name c)).isSome=true) ↔ _
  let first := stem (baseName cp name) c++indexPart c
  have hfirst : ∀ w∈first, Plain w := stem_indexPart_plain
    (copyName_plain hcp (fun w hw => hname w (mem_of_mem_take hw)) 6) c
  have hlength : first.length≤8 := length_stem_indexPart hc _
  have hne : first≠[] := by simp [first,indexPart]
  have hprintable : ∀ w, Plain w → 0x20≤w.toNat ∧ w.toNat<0x7F ∧ w≠0x3F := fun w hw =>
    ⟨hw.1,hw.2.1,hw.2.2.1⟩
  obtain ⟨hnot,hext⟩ | ⟨A,B,heq,hB,hext⟩ := extension_cases hcp name
  · have hshort : shortName cp name c=first := by
      rw [shortName,hext,append_nil]
    rw [hshort,rtlIsNameLegalDOS8Dot3,
      hcp.string first (by omega) fun w hw => hprintable w (hfirst w hw),Option.bind_some,
      isOemNameLegal_plain hfirst hne hlength]
    refine iff_of_true ⟨by omega,rfl⟩ fun hlast => hnot (mem_of_getLast? hlast)
  · have hshort : shortName cp name c=first++dot::copyExtension cp B 3 := by
      rw [shortName,hext]
    have hrest : ∀ w∈copyExtension cp B 3, Plain w :=
      copyExtension_plain hcp (fun w hw => hname w (by simp [heq,hw])) hB 3
    have hrlength := length_copyExtension cp B 3
    have hall : ∀ w∈first++dot::copyExtension cp B 3,
        0x20≤w.toNat ∧ w.toNat<0x7F ∧ w≠0x3F := by
      intro w hw
      obtain hw | hw := mem_append.mp hw
      · exact hprintable w (hfirst w hw)
      · obtain rfl | hw := mem_cons.mp hw
        · decide
        · exact hprintable w (hrest w hw)
    have htotal : (first++dot::copyExtension cp B 3).length≤12 := by
      rw [length_append,length_cons]
      omega
    rw [hshort,rtlIsNameLegalDOS8Dot3,hcp.string _ htotal hall,Option.bind_some,
      isOemNameLegal_extension hfirst hne hlength hrest (by omega),heq]
    -- something is behind the dot of the short name if it is behind the one of the long name
    cases B with
    | nil =>
      refine iff_of_false (fun h => h.2 rfl) fun h => h ?_
      simp
    | cons b B =>
      refine iff_of_true ⟨htotal,fun h => ?_⟩ fun h => hB ?_
      · rw [h,length_nil,length_cons] at hrlength
        omega
      · rw [getLast?_append_cons] at h
        exact mem_of_getLast? h

theorem ascii_asciiCodePage : asciiCodePage.Ascii :=
  ⟨fun _ _ => rfl,fun _ hlength _ => if_pos hlength⟩

theorem forall_legalLong {l : List WChar} (h : (l.all fun w => decide (LegalLong w))=true) :
    ∀ w∈l, LegalLong w :=
  fun w hw => of_decide_eq_true (all_eq_true.mp h w hw)

/-- The long name is `a.b`. -/
theorem generated_legal_dot_inside :
    (rtlGenerate8dot3Name asciiCodePage [0x61,0x2E,0x62]
        (contextAfter asciiCodePage zeroContext [])).2.length≤12 ∧
      (rtlIsNameLegalDOS8Dot3 asciiCodePage (rtlGenerate8dot3Name asciiCodePage [0x61,0x2E,0x62]
        (contextAfter asciiCodePage zeroContext [])).2).isSome=true :=
  (generated_legal_iff asciiCodePage [] [0x61,0x2E,0x62] ascii_asciiCodePage
    (forall_legalLong (by decide))).mpr (by decide)

/-- The short name for `a.` is `A~1.`. -/
theorem generated_not_legal_dot_last :
    (∀ w∈([0x61,0x2E] : List WChar), LegalLong w) ∧
      (rtlGenerate8dot3Name asciiCodePage [0x61,0x2E] zeroContext).2=[0x41,0x7E,0x31,0x2E] ∧
      rtlIsNameLegalDOS8Dot3 asciiCodePage
        (rtlGenerate8dot3Name asciiCodePage [0x61,0x2E] zeroContext).2=none :=
  ⟨forall_legalLong (by decide),by decide +kernel,by decide +kernel⟩

end Odyssey.Rtl.ShortName
