import Cs444.Slob.Heap

/-!
# The free list of one page

`OnPage A m pfn fl l`: the `freelist` pointer `fl` of the page leads, through the encodings in
`m`, to the free blocks `l`, which lie inside the page in address order.

The pointer surgery of `slob.c` is described on such lists:

* `OnPage.findBlock_spec`: the search of `slob_page_alloc` finds the first block with room;
* `OnPage.takeBlock`: taking `units` units out of a block removes exactly their addresses;
* `OnPage.insertBlock`: the reinsertion of `slob_free` adds exactly the addresses of the block and
  leaves the list coalesced.

Each also says that no unit outside the free blocks is written.
-/

namespace Cs444.Slob

variable (A : Arch)

/-- The first unit after the page `pfn`. -/
def Arch.pageEnd (pfn : ℕ) : ℕ := A.pageAddress pfn + A.pageUnits

/-- The free blocks of the page `pfn`, reached from `fl`. -/
structure OnPage (m : Mem) (pfn fl : ℕ) (l : List Span) : Prop where
  chain : Chain A m (A.pageEnd pfn) l
  head : fl = headOr (A.pageEnd pfn) l
  order : InOrder l
  within : Within (A.pageAddress pfn) (A.pageEnd pfn) l

variable {A} {m m' : Mem} {pfn fl units : ℕ} {l pre post : List Span}

/-! ## Addresses of a page -/

theorem pageEnd_mod : A.pageEnd pfn % A.pageUnits = 0 := by
  unfold Arch.pageEnd Arch.pageAddress
  rw [← Nat.succ_mul]; exact Nat.mul_mod_left _ _

/-- An address strictly inside a page is not page aligned. -/
theorem mod_ne_zero (pfn : ℕ) {a : ℕ} (h₁ : A.pageAddress pfn < a) (h₂ : a < A.pageEnd pfn) :
    a % A.pageUnits ≠ 0 := by
  intro h0
  have hb := A.base_eq (Nat.le_of_lt h₁) h₂
  have := Nat.div_add_mod' a A.pageUnits
  unfold Arch.base at hb
  omega

theorem base_start {b : Span} (h : Within (A.pageAddress pfn) (A.pageEnd pfn) [b]) :
    A.base b.start = A.pageAddress pfn := by
  obtain ⟨⟨h₁, h₂, h₃⟩, -⟩ := within_cons.mp h
  refine A.base_eq h₁ ?_
  unfold Span.fin Arch.pageEnd at h₃
  omega

theorem headOr_le {lo hi : ℕ} (h : Within lo hi l) : headOr hi l ≤ hi := by
  cases l with
  | nil => exact le_rfl
  | cons b l =>
    obtain ⟨⟨-, h₂, h₃⟩, -⟩ := within_cons.mp h
    unfold Span.fin at h₃
    show b.start ≤ hi
    omega

theorem le_headOr {x hi : ℕ} (hx : x ≤ hi) (h : ∀ b ∈ l, x ≤ b.start) : x ≤ headOr hi l := by
  cases l with
  | nil => exact hx
  | cons b l => exact h b (by simp)

/-- Where a block of the list lies. -/
structure Mid (A : Arch) (pfn : ℕ) (pre : List Span) (b : Span) (post : List Span) : Prop where
  lo : A.pageAddress pfn ≤ b.start
  pos : 0 < b.len
  hi : b.start + b.len ≤ A.pageAddress pfn + A.pageUnits
  base : A.base b.start = A.pageAddress pfn
  before : ∀ c ∈ pre, c.start + c.len ≤ b.start
  after : ∀ c ∈ post, b.start + b.len ≤ c.start
  le_next : b.start + b.len ≤ headOr (A.pageEnd pfn) post
  next_le : headOr (A.pageEnd pfn) post ≤ A.pageAddress pfn + A.pageUnits

theorem mid_of_within {b : Span} (hw : Within (A.pageAddress pfn) (A.pageEnd pfn) (b :: post))
    (hbefore : ∀ c ∈ pre, c.fin ≤ b.start) (hafter : ∀ c ∈ post, b.fin ≤ c.start) :
    Mid A pfn pre b post := by
  obtain ⟨⟨hlo, hpos, hhi⟩, hwpost⟩ := within_cons.mp hw
  exact ⟨hlo, hpos, hhi, base_start (within_cons.mpr ⟨⟨hlo, hpos, hhi⟩, within_nil _ _⟩),
    hbefore, hafter, le_headOr hhi hafter, headOr_le hwpost⟩

theorem OnPage.mid {b : Span} (h : OnPage A m pfn fl (pre ++ b :: post)) : Mid A pfn pre b post := by
  obtain ⟨-, hwb⟩ := within_append.mp h.within
  obtain ⟨-, ho₂, ho₃⟩ := List.pairwise_append.mp h.order
  exact mid_of_within hwb (fun c hc => ho₃ c hc b (by simp)) (List.pairwise_cons.mp ho₂).1

/-! ## The search of `slob_page_alloc` -/

/-- The block has room for `units` units after its start is aligned. -/
def HasRoom (A : Arch) (units align : ℕ) (b : Span) : Prop :=
  units + alignDelta A b.start align ≤ b.len

instance (units align : ℕ) (b : Span) : Decidable (HasRoom A units align b) :=
  inferInstanceAs (Decidable (_ ≤ _))

/-- The start of the last block of a list: `prev` in the loops of `slob.c`. -/
def lastStart (l : List Span) : Option ℕ := l.getLast?.map Span.start

theorem lastStart_snoc (l : List Span) (b : Span) : lastStart (l ++ [b]) = some b.start := by
  simp [lastStart]

theorem OnPage.slobLast_iff {b : Span} (h : OnPage A m pfn fl (pre ++ b :: post)) :
    slobLast A m b.start = true ↔ post = [] := by
  obtain ⟨-, henc, -⟩ := chain_append.mp h.chain
  have hb := h.mid
  unfold slobLast
  rw [henc.slobNext_eq, decide_eq_true_eq]
  cases post with
  | nil => simp [headOr, pageEnd_mod]
  | cons c post =>
    have h' : OnPage A m pfn fl ((pre ++ [b]) ++ c :: post) := by simpa using h
    have hc := h'.mid
    have hne : c.start % A.pageUnits ≠ 0 := by
      have h₁ := hb.after c (by simp)
      have h₂ := hc.pos
      have h₃ := hc.hi
      have h₄ := hb.pos
      have h₅ := hb.lo
      exact mod_ne_zero pfn (by omega) (by unfold Arch.pageEnd; omega)
    simpa [headOr] using hne

/-- **The search** stops at the first block with room, or after the last block. -/
theorem OnPage.findBlock_spec {align fuel : ℕ} (h : OnPage A m pfn fl (pre ++ post))
    (hne : post ≠ []) (hf : post.length ≤ fuel) :
    (findBlock A m units align fuel (lastStart pre) (headOr (A.pageEnd pfn) post) = some none ∧
        ∀ b ∈ post, ¬ HasRoom A units align b) ∨
      ∃ p₁ b p₂, post = p₁ ++ b :: p₂ ∧ HasRoom A units align b ∧
        (∀ c ∈ p₁, ¬ HasRoom A units align c) ∧
        findBlock A m units align fuel (lastStart pre) (headOr (A.pageEnd pfn) post) =
          some (some (lastStart (pre ++ p₁), b.start)) := by
  induction post generalizing pre fuel with
  | nil => exact absurd rfl hne
  | cons b post ih =>
    obtain ⟨fuel, rfl⟩ : ∃ f, fuel = f + 1 := ⟨fuel - 1, by simp at hf; omega⟩
    obtain ⟨-, henc, -⟩ := chain_append.mp h.chain
    have hlast := h.slobLast_iff
    have hcur : headOr (A.pageEnd pfn) (b :: post) = b.start := rfl
    rw [hcur]
    unfold findBlock
    rw [henc.slobUnits_eq]
    by_cases hroom : units + alignDelta A b.start align ≤ b.len
    · refine .inr ⟨[], b, post, rfl, hroom, by simp, ?_⟩
      rw [if_pos hroom, List.append_nil]
    · rw [if_neg hroom]
      by_cases hpost : post = []
      · subst hpost
        refine .inl ⟨by rw [if_pos (hlast.mpr rfl)], ?_⟩
        intro c hc
        rw [List.mem_singleton.mp hc]
        exact hroom
      · rw [if_neg (fun e => hpost (hlast.mp e)), henc.slobNext_eq]
        have hrec := @ih (pre ++ [b]) fuel (by simpa using h) hpost (by simpa using hf)
        rw [lastStart_snoc] at hrec
        rcases hrec with ⟨h₁, h₂⟩ | ⟨p₁, c, p₂, rfl, h₁, hskip, h₂⟩
        · exact .inl ⟨h₁, List.forall_mem_cons.mpr ⟨hroom, h₂⟩⟩
        · refine .inr ⟨b :: p₁, c, p₂, rfl, h₁, List.forall_mem_cons.mpr ⟨hroom, hskip⟩, ?_⟩
          rw [h₂, List.append_assoc]
          rfl

/-! ## Taking a block -/

/-- The memories agree outside the blocks `l`. -/
def AgreeOff (l : List Span) (m m' : Mem) : Prop := ∀ a, (∀ b ∈ l, ¬ b.Has a) → m' a = m a

theorem AgreeOff.trans {m₁ : Mem} (h₁ : AgreeOff l m m₁) (h₂ : AgreeOff l m₁ m') : AgreeOff l m m' :=
  fun a ha => (h₂ a ha).trans (h₁ a ha)

theorem AgreeOff.weaken {l' : List Span} (h : AgreeOff l m m')
    (hcover : ∀ a, cover l' a = 0 → cover l a = 0) : AgreeOff l' m m' :=
  fun a ha => h a (cover_eq_zero_iff.mp (hcover a (cover_eq_zero_iff.mpr ha)))

/-- A chain survives a change of blocks behind it. -/
theorem Chain.congr_before {x : ℕ} (h : Chain A m x pre) (hag : AgreeOff l m m')
    (hlt : ∀ c ∈ pre, ∀ y ∈ l, c.fin ≤ y.start) : Chain A m' x pre := by
  refine h.congr fun c hc a ha => hag a fun y hy => ?_
  have := hlt c hc y hy
  unfold Span.Has at *
  omega

/-- The blocks of a list survive a change that stays inside one of them. -/
theorem Mid.agree_before {b : Span} (hb : Mid A pfn pre b post) (h : AgreeOff [b] m m') :
    ∀ c ∈ pre, ∀ a, c.Has a → m' a = m a := by
  intro c hc a ha
  refine h a fun d hd => ?_
  rw [List.mem_singleton.mp hd]
  have := hb.before c hc
  unfold Span.Has Span.fin at *
  omega

theorem Mid.agree_after {b : Span} (hb : Mid A pfn pre b post) (h : AgreeOff [b] m m') :
    ∀ c ∈ post, ∀ a, c.Has a → m' a = m a := by
  intro c hc a ha
  refine h a fun d hd => ?_
  rw [List.mem_singleton.mp hd]
  have := hb.after c hc
  unfold Span.Has Span.fin at *
  omega

/-- `setSlob` inside a block changes only that block. -/
theorem agreeOff_setSlob {b : Span} {p n : ℕ} (q : ℕ) (hn : 0 < n) (hn' : n ≤ A.pageUnits)
    (h₁ : b.start ≤ p) (h₂ : p + n ≤ b.start + b.len) : AgreeOff [b] m (setSlob A m p n q) := by
  intro a ha
  have : ¬ (b.start ≤ a ∧ a < b.start + b.len) := ha b (by simp)
  exact setSlob_frame m q hn hn' (by omega)

/-- Encoding a block in front of a chain. -/
theorem chain_setSlob {d : Span} (h : Chain A m (A.pageEnd pfn) l)
    (hw : Within (A.pageAddress pfn) (A.pageEnd pfn) (d :: l)) (hafter : ∀ c ∈ l, d.fin ≤ c.start) :
    Chain A (setSlob A m d.start d.len (headOr (A.pageEnd pfn) l)) (A.pageEnd pfn) (d :: l) ∧
      AgreeOff [d] m (setSlob A m d.start d.len (headOr (A.pageEnd pfn) l)) := by
  have hd : Mid A pfn [] d l := mid_of_within hw (by simp) hafter
  obtain ⟨hlo, hpos, hhi, hbase, -, -, hq, hq'⟩ := id hd
  have hag : AgreeOff [d] m (setSlob A m d.start d.len (headOr (A.pageEnd pfn) l)) :=
    agreeOff_setSlob _ hpos (by omega) le_rfl le_rfl
  exact ⟨⟨encodes_setSlob m hpos (by omega) (by omega) (by omega), h.congr (hd.agree_after hag)⟩, hag⟩

/-- A page with a single free block. -/
theorem onPage_setSlob {d : Span} (m : Mem) (hw : Within (A.pageAddress pfn) (A.pageEnd pfn) [d]) :
    OnPage A (setSlob A m d.start d.len (A.pageEnd pfn)) pfn d.start [d] ∧
      AgreeOff [d] m (setSlob A m d.start d.len (A.pageEnd pfn)) := by
  obtain ⟨hch, hag⟩ := @chain_setSlob A m pfn [] d trivial hw (by simp)
  exact ⟨⟨hch, rfl, List.pairwise_singleton _ _, hw⟩, hag⟩

/-- Fragmenting the head of a block splits it in the list. -/
theorem OnPage.splitHead {cur avail : ℕ} (delta : ℕ)
    (h : OnPage A m pfn fl (pre ++ ⟨cur, avail⟩ :: post)) (hd : 0 < delta) (hd' : delta < avail) :
    ∃ m', splitHead A m (lastStart pre) cur delta =
        (m', some cur, cur + delta, avail - delta) ∧
      OnPage A m' pfn fl (pre ++ [⟨cur, delta⟩] ++ ⟨cur + delta, avail - delta⟩ :: post) ∧
      AgreeOff [⟨cur, avail⟩] m m' := by
  obtain ⟨hpre, henc, hpost⟩ := chain_append.mp h.chain
  have hb := h.mid
  obtain ⟨hlo, -, hhi, hbase, -, -, hq, hq'⟩ := id hb
  simp only at hlo hhi hbase hq
  have hbase' : A.base (cur + delta) = A.pageAddress pfn := A.base_eq (by omega) (by omega)
  set q := headOr (A.pageEnd pfn) post
  set m₁ := setSlob A m (cur + delta) (avail - delta) q
  set m₂ := setSlob A m₁ cur delta (cur + delta)
  have henc₁ : Encodes A m₂ (cur + delta) (avail - delta) q := by
    refine (encodes_setSlob m (by omega) (by omega) (by omega) (by omega)).congr ?_
    intro a ha _
    exact setSlob_frame m₁ _ (by omega) (by omega) (by omega)
  have henc₂ : Encodes A m₂ cur delta (cur + delta) :=
    encodes_setSlob m₁ (by omega) (by omega) (by omega) (by omega)
  have hag : AgreeOff [⟨cur, avail⟩] m m₂ := by
    have h₁ : AgreeOff [⟨cur, avail⟩] m m₁ :=
      agreeOff_setSlob q (by omega) (by omega) (by simp) (by simp; omega)
    have h₂ : AgreeOff [⟨cur, avail⟩] m₁ m₂ :=
      agreeOff_setSlob _ (by omega) (by omega) (by simp) (by simp; omega)
    exact h₁.trans h₂
  refine ⟨m₂, ?_, ⟨?_, ?_, ?_, ?_⟩, hag⟩
  · unfold Slob.splitHead
    simp only [henc.slobUnits_eq, henc.slobNext_eq, if_pos (Nat.pos_iff_ne_zero.mp hd)]
    rw [henc₁.slobUnits_eq]
  · rw [List.append_assoc, chain_append]
    exact ⟨hpre.congr (hb.agree_before hag), henc₂, henc₁, hpost.congr (hb.agree_after hag)⟩
  · rw [h.head, List.append_assoc, headOr_append, headOr_append]; rfl
  · rw [List.append_assoc]
    refine pairwise_replace (R := (· ≤ ·)) (X := [⟨cur, delta⟩, ⟨cur + delta, avail - delta⟩])
      (by omega) h.order ?_ ?_
    · simp
    · simp; omega
  · rw [List.append_assoc]
    refine Within.mono (X := [⟨cur, delta⟩, ⟨cur + delta, avail - delta⟩]) h.within ?_
    simp; omega

/-- Pointing the last block of a chain somewhere else. -/
theorem Chain.relink {x y : ℕ} {d : Span} (h : Chain A m x (pre ++ [d]))
    (hd : Mid A pfn pre d post) (hy : A.pageAddress pfn < y)
    (hy' : y ≤ A.pageAddress pfn + A.pageUnits) :
    Chain A (setSlob A m d.start (slobUnits m d.start) y) y (pre ++ [d]) ∧
      AgreeOff [d] m (setSlob A m d.start (slobUnits m d.start) y) := by
  obtain ⟨hpre, henc, -⟩ := chain_append.mp h
  obtain ⟨hlo, hpos, hhi, hbase, -, -, -, -⟩ := id hd
  rw [henc.slobUnits_eq]
  have hag : AgreeOff [d] m (setSlob A m d.start d.len y) :=
    agreeOff_setSlob y hpos (by omega) le_rfl le_rfl
  refine ⟨chain_append.mpr ⟨hpre.congr (hd.agree_before hag), ?_, trivial⟩, hag⟩
  exact encodes_setSlob m hpos (by omega) (by omega) (by omega)

variable (A m fl units) in
/-- `carve` relinks the block before and then encodes what is left of the block. -/
theorem carve_eq (prev : Option ℕ) (cur avail : ℕ) :
    carve A m fl units prev cur avail =
      let next := slobNext A m cur
      let y := if avail = units then next else cur + units
      let m₁ := prev.elim m fun p => setSlob A m p (slobUnits m p) y
      (if avail = units then m₁ else setSlob A m₁ (cur + units) (avail - units) next,
        prev.elim y fun _ => fl) := by
  unfold carve
  cases prev <;> by_cases h : avail = units <;> simp [h]

/-- What is left of a block of which `units` units were taken, and the blocks after it. -/
theorem chain_rest {cur avail : ℕ} (hb : Mid A pfn pre ⟨cur, avail⟩ post)
    (h : Chain A m (A.pageEnd pfn) post) (hu : 0 < units) (hle : units ≤ avail) :
    ∃ m', m' = (if avail = units then m else setSlob A m (cur + units) (avail - units)
        (headOr (A.pageEnd pfn) post)) ∧
      Chain A m' (A.pageEnd pfn) (piece (cur + units) (avail - units) ++ post) ∧
      AgreeOff [⟨cur, avail⟩] m m' := by
  obtain ⟨hlo, -, hhi, -, -, -, hq, hq'⟩ := id hb
  simp only at hlo hhi hq
  by_cases hx : avail = units
  · refine ⟨m, by rw [if_pos hx], ?_, fun _ _ => rfl⟩
    rw [piece, if_pos (by omega), List.nil_append]
    exact h
  · have hbase : A.base (cur + units) = A.pageAddress pfn := A.base_eq (by omega) (by omega)
    have hag : AgreeOff [⟨cur, avail⟩] m (setSlob A m (cur + units) (avail - units)
        (headOr (A.pageEnd pfn) post)) :=
      agreeOff_setSlob _ (by omega) (by omega) (by simp) (by simp; omega)
    refine ⟨_, by rw [if_neg hx], ?_, hag⟩
    rw [piece, if_neg (by omega)]
    exact ⟨encodes_setSlob m (by omega) (by omega) (by omega) (by omega),
      h.congr (hb.agree_after hag)⟩

/-- **Taking** the first `units` units of a block. -/
theorem OnPage.carve {cur avail : ℕ} (h : OnPage A m pfn fl (pre ++ ⟨cur, avail⟩ :: post))
    (hu : 0 < units) (hle : units ≤ avail) :
    ∃ m' fl', carve A m fl units (lastStart pre) cur avail = (m', fl') ∧
      OnPage A m' pfn fl' (pre ++ (piece (cur + units) (avail - units) ++ post)) ∧
      AgreeOff (pre ++ [⟨cur, avail⟩]) m m' := by
  obtain ⟨hpre, henc, hpost⟩ := chain_append.mp h.chain
  have hb := h.mid
  obtain ⟨hlo, -, hhi, -, hbefore, -, hq, hq'⟩ := id hb
  simp only at hlo hhi hq hbefore
  set e := A.pageEnd pfn
  set rest := piece (cur + units) (avail - units) ++ post with hrest
  have hy : headOr e rest = if avail = units then headOr e post else cur + units := by
    rw [hrest]
    unfold piece
    by_cases hx : avail = units
    · rw [if_pos (by omega), if_pos hx, List.nil_append]
    · rw [if_neg (by omega), if_neg hx]; rfl
  have hylo : cur + units ≤ headOr e rest ∧ headOr e rest ≤ A.pageAddress pfn + A.pageUnits := by
    rw [hy]; split_ifs <;> omega
  have hin : ∀ x ∈ piece (cur + units) (avail - units),
      cur ≤ x.start ∧ 0 < x.len ∧ x.fin ≤ cur + avail := by
    intro x hx
    obtain ⟨h₁, rfl⟩ := mem_piece.mp hx
    simp only [Span.fin_mk]
    omega
  have hpage : ∀ m' fl', Chain A m' (headOr e rest) pre → Chain A m' e rest →
      fl' = headOr e (pre ++ rest) → OnPage A m' pfn fl' (pre ++ rest) := by
    intro m' fl' h₁ h₂ h₃
    refine ⟨chain_append.mpr ⟨h₁, h₂⟩, h₃, ?_, Within.mono h.within hin⟩
    refine pairwise_replace (fun _ _ _ _ _ _ _ => by omega) h.order ?_
      fun x hx => ⟨(hin x hx).1, (hin x hx).2.2⟩
    unfold piece; split_ifs <;> simp
  rw [carve_eq]
  simp only [henc.slobNext_eq, ← hy]
  rcases List.eq_nil_or_concat' pre with rfl | ⟨pre, d, rfl⟩
  · obtain ⟨m₂, hm₂, hch, hag⟩ := chain_rest hb hpost hu hle
    exact ⟨m₂, headOr e rest, by rw [hm₂]; rfl, hpage _ _ trivial hch rfl, hag⟩
  · have h' : OnPage A m pfn fl (pre ++ d :: ⟨cur, avail⟩ :: post) := by simpa using h
    have hd := h'.mid
    obtain ⟨hch₁, hag₁⟩ := hpre.relink (y := headOr e rest) hd (by omega) (by omega)
    rw [lastStart_snoc]
    simp only [Option.elim]
    set m₁ := setSlob A m d.start (slobUnits m d.start) (headOr e rest)
    obtain ⟨m₂, hm₂, hch₂, hag₂⟩ := chain_rest hb
      (hpost.congr fun c hc => hd.agree_after hag₁ c (by simp [hc])) hu hle
    refine ⟨m₂, fl, by rw [hm₂], hpage _ _ ?_ hch₂ ?_, ?_⟩
    · exact hch₁.congr (hb.agree_before hag₂)
    · rw [h.head, headOr_append, headOr_append]
      cases pre <;> rfl
    · intro a ha
      rw [hag₂ a fun c hc => ha c (by simp at hc ⊢; simp [hc]),
        hag₁ a fun c hc => ha c (by simp at hc ⊢; simp [hc])]

/-- **Taking a block**: `units` units are taken at the aligned start of the block `cur`. -/
theorem OnPage.takeBlock {x : Span} {delta : ℕ} (h : OnPage A m pfn fl (pre ++ x :: post))
    (hu : 0 < units) (hle : units + delta ≤ x.len) :
    ∃ m' fl', takeBlock A m fl units (lastStart pre) x.start delta =
        (m', fl', x.start + delta) ∧
      OnPage A m' pfn fl' (pre ++ (x.cut delta units ++ post)) ∧
      AgreeOff (pre ++ [x]) m m' := by
  obtain ⟨cur, avail⟩ := x
  simp only at hle ⊢
  obtain ⟨-, henc, -⟩ := chain_append.mp h.chain
  unfold Slob.takeBlock
  by_cases hd : delta = 0
  · subst hd
    obtain ⟨m', fl', h₁, h₂, h₃⟩ := h.carve hu (by omega)
    refine ⟨m', fl', ?_, by simpa [Span.cut, piece] using h₂, h₃⟩
    simp [Slob.splitHead, henc.slobUnits_eq, h₁]
  · obtain ⟨m₁, h₁, h₂, hag₁⟩ := h.splitHead delta (by omega) (by omega)
    obtain ⟨m', fl', h₃, h₄, hag₂⟩ := h₂.carve hu (by omega)
    rw [lastStart_snoc] at h₃
    refine ⟨m', fl', by rw [h₁]; simp only [h₃], by simpa [Span.cut, piece, hd] using h₄, ?_⟩
    intro a ha
    rw [hag₂ a fun c hc hca => ?_, hag₁ a fun c hc => ha c (by simp at hc ⊢; simp [hc])]
    rcases List.mem_append.mp hc with hc | hc
    · rcases List.mem_append.mp hc with hc | hc
      · exact ha c (by simp [hc]) hca
      · refine ha ⟨cur, avail⟩ (by simp) ?_
        rw [List.mem_singleton.mp hc] at hca
        unfold Span.Has at *; simp at *; omega
    · refine ha ⟨cur, avail⟩ (by simp) ?_
      rw [List.mem_singleton.mp hc] at hca
      unfold Span.Has at *; simp at *; omega

/-! ## Giving a block back -/

/-- `while (b > next)` stops at the last free block before `b`. -/
theorem findPrev_spec {b e fuel : ℕ} {d : Span} (h : Chain A m e (pre ++ d :: post))
    (hpre : ∀ c ∈ pre ++ [d], c.start < b) (hpost : b ≤ headOr e post) (hf : pre.length < fuel) :
    findPrev A m b fuel (headOr e (pre ++ d :: post)) = some d.start := by
  induction pre generalizing fuel with
  | nil =>
    obtain ⟨fuel, rfl⟩ : ∃ f, fuel = f + 1 := ⟨fuel - 1, by omega⟩
    have hnext : slobNext A m d.start = headOr e post := h.1.slobNext_eq
    show findPrev A m b (fuel + 1) d.start = _
    unfold findPrev
    rw [hnext]
    exact if_neg (by omega)
  | cons c pre ih =>
    obtain ⟨fuel, rfl⟩ : ∃ f, fuel = f + 1 := ⟨fuel - 1, by simp at hf; omega⟩
    have hnext : slobNext A m c.start = headOr e (pre ++ d :: post) := h.1.slobNext_eq
    have hlt : headOr e (pre ++ d :: post) < b := by
      cases pre with
      | nil => exact hpre d (by simp)
      | cons c' pre => exact hpre c' (by simp)
    have hrec := ih h.2 (fun x hx => hpre x (List.mem_cons_of_mem _ hx)) (by simpa using hf)
    show findPrev A m b (fuel + 1) c.start = _
    unfold findPrev
    rw [hnext]
    exact (if_pos hlt).trans hrec

/-- The two ways `slob_free` links a block `d` to the free blocks `l` behind it: as one block with the
first of them when they touch, else as a block of its own. -/
theorem chain_fuse {d : Span} (h : Chain A m (A.pageEnd pfn) l) (hap : Apart l)
    (hw : Within (A.pageAddress pfn) (A.pageEnd pfn) (d :: l)) (hafter : ∀ c ∈ l, d.fin ≤ c.start) :
    ∃ m', m' = (if l ≠ [] ∧ d.start + d.len = headOr (A.pageEnd pfn) l then
          setSlob A m d.start (d.len + slobUnits m (headOr (A.pageEnd pfn) l))
            (slobNext A m (headOr (A.pageEnd pfn) l))
        else setSlob A m d.start d.len (headOr (A.pageEnd pfn) l)) ∧
      Chain A m' (A.pageEnd pfn) (fuse d l) ∧ AgreeOff (d :: l) m m' := by
  cases l with
  | nil =>
    obtain ⟨hch, hag⟩ := chain_setSlob h hw hafter
    exact ⟨_, by rw [if_neg (by simp)], hch, hag⟩
  | cons c l =>
    have hw' := hw.fuse
    have hcover := cover_fuse d (c :: l)
    rw [fuse_cons] at hw' hcover ⊢
    by_cases htouch : d.fin = c.start
    · rw [if_pos htouch] at hw' hcover ⊢
      have hafter' : ∀ x ∈ l, (⟨d.start, d.len + c.len⟩ : Span).fin ≤ x.start := by
        intro x hx
        have hcx := (List.pairwise_cons.mp hap).1 x hx
        unfold Span.fin at htouch hcx
        show d.start + (d.len + c.len) ≤ x.start
        omega
      obtain ⟨hch, hag⟩ := chain_setSlob h.2 hw' hafter'
      refine ⟨_, ?_, hch, hag.weaken fun a ha => ?_⟩
      · have hhead : headOr (A.pageEnd pfn) (c :: l) = c.start := rfl
        rw [hhead, if_pos ⟨by simp, htouch⟩, h.1.slobUnits_eq, h.1.slobNext_eq]
      · rw [← hcover, cover_cons] at ha
        rw [cover_cons, cover_nil]
        omega
    · rw [if_neg htouch]
      obtain ⟨hch, hag⟩ := chain_setSlob h hw hafter
      refine ⟨_, by rw [if_neg fun e => htouch e.2], hch, hag.weaken fun a ha => ?_⟩
      rw [cover_cons] at ha
      rw [cover_cons, cover_nil]
      omega

theorem headOr_fuse (e : ℕ) (b : Span) (l : List Span) : headOr e (fuse b l) = b.start := by
  obtain ⟨n, l', hl⟩ := fuse_eq_cons b l
  rw [hl]
  rfl

section InsertBlock

variable {b : ℕ} {d : Span}

/-- Giving back a block before the first free one. -/
theorem OnPage.insertBlock_front (h : OnPage A m pfn fl l) (hap : Apart l) (hne : l ≠ [])
    (hw : Within (A.pageAddress pfn) (A.pageEnd pfn) (⟨b, units⟩ :: l))
    (hafter : ∀ c ∈ l, b + units ≤ c.start) :
    ∃ m', insertBlock A m fl b units = some (m', b) ∧
      Chain A m' (A.pageEnd pfn) (fuse ⟨b, units⟩ l) ∧ AgreeOff (⟨b, units⟩ :: l) m m' := by
  obtain ⟨m', hm', hch, hag⟩ := chain_fuse h.chain hap hw hafter
  refine ⟨m', ?_, hch, hag⟩
  have hlt : b < fl := by
    obtain ⟨c, l, rfl⟩ := List.exists_cons_of_ne_nil hne
    have hc := hafter c (by simp)
    have hpos : 0 < units := (hw ⟨b, units⟩ (by simp)).2.1
    rw [h.head]
    show b < c.start
    omega
  unfold Slob.insertBlock
  rw [if_pos hlt, hm', h.head]
  by_cases hadj : b + units = headOr (A.pageEnd pfn) l
  · rw [if_pos hadj, if_pos ⟨hne, hadj⟩]
  · rw [if_neg hadj, if_neg fun e => hadj e.2]

section Behind

variable (h : OnPage A m pfn fl (pre ++ d :: post)) (hbefore : ∀ c ∈ pre ++ [d], c.fin ≤ b)
include h hbefore

/-- The freelist does not start behind `b`. -/
theorem OnPage.freelist_le : fl ≤ b := by
  rw [h.head]
  cases pre with
  | nil => exact (Nat.le_add_right _ _).trans (hbefore d (by simp))
  | cons c pre => exact (Nat.le_add_right _ _).trans (hbefore c (by simp))

theorem OnPage.findPrev_eq (hafter : b ≤ headOr (A.pageEnd pfn) post) :
    findPrev A m b (A.pageUnits + 1) fl = some d.start := by
  have hlen : (pre ++ d :: post).length ≤ A.pageEnd pfn - A.pageAddress pfn :=
    h.order.length_le h.within
  rw [h.head]
  refine findPrev_spec h.chain ?_ hafter ?_
  · intro c hc
    have h₁ := hbefore c hc
    have h₂ := (h.within c (by simp at hc ⊢; tauto)).2.1
    unfold Span.fin at h₁
    omega
  · unfold Arch.pageEnd at hlen
    simp only [List.length_append, List.length_cons] at hlen
    omega

theorem OnPage.insertBlock_behind_eq (hafter : b + units ≤ headOr (A.pageEnd pfn) post) :
    Slob.insertBlock A m fl b units =
      let m₁ := if post ≠ [] ∧ b + units = headOr (A.pageEnd pfn) post then
          setSlob A m b (units + slobUnits m (headOr (A.pageEnd pfn) post))
            (slobNext A m (headOr (A.pageEnd pfn) post))
        else setSlob A m b units (headOr (A.pageEnd pfn) post)
      some (if d.start + slobUnits m₁ d.start = b then
          setSlob A m₁ d.start (slobUnits m₁ b + slobUnits m₁ d.start) (slobNext A m₁ b)
        else setSlob A m₁ d.start (slobUnits m₁ d.start) b, fl) := by
  have hnext : slobNext A m d.start = headOr (A.pageEnd pfn) post :=
    (chain_append.mp h.chain).2.1.slobNext_eq
  have hlast : ((!slobLast A m d.start) = true ∧ b + units = headOr (A.pageEnd pfn) post) ↔
      (post ≠ [] ∧ b + units = headOr (A.pageEnd pfn) post) := by
    rw [Bool.not_eq_true', ← Bool.not_eq_true, h.slobLast_iff]
  unfold Slob.insertBlock
  rw [if_neg (Nat.not_lt.mpr (h.freelist_le hbefore)),
    h.findPrev_eq hbefore ((Nat.le_add_right b units).trans hafter)]
  simp only [hnext, hlast]

/-- Giving back a block behind the free block `d`. -/
theorem OnPage.insertBlock_behind (hap : Apart (pre ++ d :: post))
    (hw : Within (A.pageAddress pfn) (A.pageEnd pfn) (⟨b, units⟩ :: post))
    (hafter : ∀ c ∈ post, b + units ≤ c.start) :
    ∃ m', insertBlock A m fl b units = some (m', fl) ∧
      Chain A m' (A.pageEnd pfn) (pre ++ fuse d (fuse ⟨b, units⟩ post)) ∧
      AgreeOff (⟨b, units⟩ :: (pre ++ d :: post)) m m' := by
  obtain ⟨hpre, henc, hpost⟩ := chain_append.mp h.chain
  obtain ⟨-, hwdpost⟩ := within_append.mp h.within
  obtain ⟨-, hapdpost, -⟩ := List.pairwise_append.mp hap
  have happost : Apart post := (List.pairwise_cons.mp hapdpost).2
  have hdb : d.fin ≤ b := hbefore d (by simp)
  have hmid := h.mid
  -- the block and the free blocks behind it
  obtain ⟨m₁, hm₁, hch₁, hag₁⟩ := chain_fuse hpost happost hw hafter
  have hapb : Apart (fuse ⟨b, units⟩ post) := by
    have hsingle : Apart ([] ++ [⟨b, units⟩]) := List.pairwise_singleton _ _
    exact hsingle.fuse happost hafter
  have hbehind : ∀ c ∈ pre ++ [d], ∀ y ∈ (⟨b, units⟩ : Span) :: post, c.fin ≤ y.start := by
    intro c hc y hy
    have hcb := hbefore c hc
    cases List.mem_cons.mp hy with
    | inl e => subst e; exact hcb
    | inr hy => have := hafter y hy; omega
  have henc₁ : Encodes A m₁ d.start d.len (headOr (A.pageEnd pfn) post) := by
    have hchd : Chain A m (headOr (A.pageEnd pfn) post) [d] := ⟨henc, trivial⟩
    exact (hchd.congr_before hag₁ fun c hc => hbehind c (by simp at hc ⊢; simp [hc])).1
  -- the block before it
  have hafter₂ : ∀ c ∈ fuse ⟨b, units⟩ post, d.fin ≤ c.start := fun c hc =>
    hdb.trans (le_of_mem_fuse hafter hc)
  have hwd := within_cons.mpr ⟨(within_cons.mp hwdpost).1, hw.fuse⟩
  obtain ⟨m₂, hm₂, hch₂, hag₂⟩ := chain_fuse hch₁ hapb hwd hafter₂
  have hcover : ∀ a, cover (⟨b, units⟩ :: (pre ++ d :: post)) a = 0 →
      cover (⟨b, units⟩ :: post) a = 0 ∧ cover (d :: fuse ⟨b, units⟩ post) a = 0 := by
    intro a ha
    simp only [cover_cons, cover_append, cover_fuse] at ha ⊢
    omega
  refine ⟨m₂, ?_, chain_append.mpr ⟨?_, hch₂⟩,
    (hag₁.weaken fun a ha => (hcover a ha).1).trans (hag₂.weaken fun a ha => (hcover a ha).2)⟩
  · have hne : fuse ⟨b, units⟩ post ≠ [] := by
      obtain ⟨n, l', hl⟩ := fuse_eq_cons ⟨b, units⟩ post
      rw [hl]
      simp
    have hfin : b + units ≤ A.pageEnd pfn := (hw ⟨b, units⟩ (by simp)).2.2
    rw [headOr_fuse] at hm₂
    simp only [hne, ne_eq, not_false_eq_true, true_and] at hm₂
    rw [h.insertBlock_behind_eq hbefore (le_headOr hfin hafter)]
    simp only [← hm₁, henc₁.slobUnits_eq, Nat.add_comm (slobUnits m₁ b) d.len, ← hm₂]
  · rw [headOr_fuse]
    have hpre' : Chain A m d.start pre := hpre
    refine (hpre'.congr_before hag₁ fun c hc => hbehind c (by simp [hc])).congr_before hag₂ ?_
    intro c hc y hy
    have hcd := hmid.before c hc
    cases List.mem_cons.mp hy with
    | inl e => subst e; exact hcd
    | inr hy =>
      have hdy := hafter₂ y hy
      unfold Span.fin at hdy ⊢
      omega

end Behind

/-- **Giving a block back**: its units become free, and the list stays coalesced. -/
theorem OnPage.insertBlock (h : OnPage A m pfn fl l) (hap : Apart l) (hne : l ≠ [])
    (hb : Within (A.pageAddress pfn) (A.pageEnd pfn) [⟨b, units⟩])
    (hdis : ∀ a, (⟨b, units⟩ : Span).Has a → cover l a = 0) :
    ∃ m' fl' l', insertBlock A m fl b units = some (m', fl') ∧ OnPage A m' pfn fl' l' ∧
      Apart l' ∧ (∀ a, cover l' a = cover (⟨b, units⟩ :: l) a) ∧
      AgreeOff (⟨b, units⟩ :: l) m m' := by
  obtain ⟨hbpage, -⟩ := within_cons.mp hb
  obtain ⟨pre, post, rfl, hbefore, hafter⟩ :=
    h.order.split_at (fun c hc => (h.within c hc).2.1) hbpage.2.1 hdis
  obtain ⟨hwpre, hwpost⟩ := within_append.mp h.within
  obtain ⟨hap₁, hap₂, -⟩ := List.pairwise_append.mp hap
  have hwb : Within (A.pageAddress pfn) (A.pageEnd pfn) (⟨b, units⟩ :: post) :=
    within_cons.mpr ⟨hbpage, hwpost⟩
  have hapb : Apart (fuse ⟨b, units⟩ post) := by
    have hsingle : Apart ([] ++ [⟨b, units⟩]) := List.pairwise_singleton _ _
    exact hsingle.fuse hap₂ hafter
  rcases List.eq_nil_or_concat' pre with rfl | ⟨pre, d, rfl⟩
  · obtain ⟨m', hins, hch, hag⟩ := OnPage.insertBlock_front h hap hne hwb hafter
    have hhead : b = headOr (A.pageEnd pfn) (fuse ⟨b, units⟩ post) := by rw [headOr_fuse]
    exact ⟨m', b, _, hins, ⟨hch, hhead, hapb.inOrder, hwb.fuse⟩, hapb, cover_fuse _ _, hag⟩
  · rw [List.append_assoc, List.singleton_append] at h hap ⊢
    obtain ⟨m', hins, hch, hag⟩ := h.insertBlock_behind hbefore hap hwb hafter
    have hapl : Apart (pre ++ fuse d (fuse ⟨b, units⟩ post)) := by
      refine Apart.fuse hap₁ hapb fun c hc => ?_
      exact (hbefore d (by simp)).trans (le_of_mem_fuse hafter hc)
    have hwl : Within (A.pageAddress pfn) (A.pageEnd pfn) (pre ++ fuse d (fuse ⟨b, units⟩ post)) := by
      obtain ⟨hw₁, hw₂⟩ := within_append.mp hwpre
      refine within_append.mpr ⟨hw₁, Within.fuse (within_cons.mpr ⟨(within_cons.mp hw₂).1, hwb.fuse⟩)⟩
    refine ⟨m', fl, _, hins, ⟨hch, ?_, hapl.inOrder, hwl⟩, hapl, fun a => ?_, hag⟩
    · rw [h.head, headOr_append, headOr_append, headOr_fuse]
      rfl
    · simp only [cover_append, cover_fuse, cover_cons]
      omega

end InsertBlock

end Cs444.Slob
