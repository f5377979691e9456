import Mathlib.Data.List.Infix
set_option autoImplicit false

/-! Go's `path/filepath` on a Unix host: `Clean` and a two-element `Join`, by
the rules the package documents. `Clean` reads a path element by element
between its slashes: empty elements and `.` go, `..` takes back the element
before it (at the root it is dropped, in a relative path with nothing to take
back it stays), and a rooted path keeps its slash; what is left is joined by
slashes, and the empty result is `.`. `Join(a, b)` cleans `a/b`, or `b` alone
when `a` is empty.

A plain element (nonempty, no slash, neither `.` nor `..`) joined onto a path
lands after the cleaned path and one slash (`join_plain`); joined onto the
result again, it lands after that one (`join_join_plain`). -/

namespace Stenographer.Lib.FilePath

/-- The elements of a path between its slashes, empty ones included. -/
def elements : List Char → List (List Char)
  | [] => [[]]
  | c :: p =>
    if c = '/' then [] :: elements p
    else
      match elements p with
      | e :: es => (c :: e) :: es
      | [] => [[c]]

/-- An element that `Clean` keeps as it is. -/
def Plain (e : List Char) : Prop := e ≠ [] ∧ '/' ∉ e ∧ e ≠ ['.'] ∧ e ≠ ['.', '.']

instance : DecidablePred Plain := fun _ => inferInstanceAs (Decidable (_ ∧ _ ∧ _ ∧ _))

/-- One element of `Clean`'s pass, onto the elements kept so far, last first. -/
def cleanStep (rooted : Bool) (kept : List (List Char)) (e : List Char) : List (List Char) :=
  if e = [] ∨ e = ['.'] then kept
  else if e = ['.', '.'] then
    match kept with
    | d :: ds => if d = ['.', '.'] then e :: kept else ds
    | [] => if rooted then [] else [e]
  else e :: kept

/-- Whether a path starts at the root. -/
def rooted (p : List Char) : Bool := p.head? == some '/'

/-- The elements `Clean` keeps of a path, last first. -/
def kept (p : List Char) : List (List Char) := (elements p).foldl (cleanStep (rooted p)) []

/-- The path `Clean` writes for the elements it kept. -/
def render (rooted : Bool) (kept : List (List Char)) : List Char :=
  let body := ['/'].intercalate kept.reverse
  if rooted then '/' :: body else if body = [] then ['.'] else body

/-- `filepath.Clean`. -/
def clean (p : List Char) : List Char := render (rooted p) (kept p)

/-- `filepath.Join(a, b)`. -/
def join (a b : List Char) : List Char :=
  if a ≠ [] then clean (a ++ '/' :: b) else if b ≠ [] then clean b else []

/-- A cleaned directory with what `Join` puts between it and the next element:
nothing after `.`, which it drops, and one slash after anything else but the root. -/
def dirPrefix (c : List Char) : List Char :=
  if c = ['.'] then [] else if c = ['/'] then ['/'] else c ++ ['/']

/-! ### Elements -/

theorem elements_ne_nil (p : List Char) : elements p ≠ [] := by
  cases p with
  | nil => simp [elements]
  | cons c p =>
    unfold elements
    split_ifs
    · simp
    · split <;> simp

theorem not_slash_of_mem_elements {p e : List Char} (he : e ∈ elements p) : '/' ∉ e := by
  induction p generalizing e with
  | nil => simp_all [elements]
  | cons c p ih =>
    unfold elements at he
    split_ifs at he with hc
    · rcases List.mem_cons.mp he with rfl | he
      · simp
      · exact ih he
    · split at he
      next e' es hsplit =>
        rcases List.mem_cons.mp he with rfl | he
        · have := ih (hsplit ▸ List.mem_cons_self)
          simp only [List.mem_cons, not_or]
          exact ⟨Ne.symm hc, this⟩
        · exact ih (hsplit ▸ List.mem_cons_of_mem _ he)
      next hsplit => exact absurd hsplit (elements_ne_nil p)

theorem elements_append_slash (p q : List Char) :
    elements (p ++ '/' :: q) = elements p ++ elements q := by
  induction p with
  | nil => simp [elements]
  | cons c p ih =>
    rw [List.cons_append]
    by_cases hc : c = '/'
    · simp [elements, hc, ih]
    · obtain ⟨e, es, hp⟩ := List.exists_cons_of_ne_nil (elements_ne_nil p)
      simp only [elements, if_neg hc, ih, hp, List.cons_append]

theorem elements_of_not_slash {e : List Char} (he : '/' ∉ e) : elements e = [e] := by
  induction e with
  | nil => rfl
  | cons c e ih =>
    rw [List.mem_cons, not_or] at he
    simp only [elements, if_neg (Ne.symm he.1), ih he.2]

theorem elements_slash_cons (p : List Char) : elements ('/' :: p) = [] :: elements p := by
  simp [elements]

theorem prefix_intercalate (x : List Char) (xs : List (List Char)) :
    x <+: ['/'].intercalate (x :: xs) := by
  cases xs with
  | nil => rw [List.intercalate_singleton]
  | cons y ys =>
    rw [List.intercalate_cons_cons, List.append_assoc]
    exact List.prefix_append _ _

theorem intercalate_append_singleton (L : List (List Char)) (e : List Char) (hL : L ≠ []) :
    ['/'].intercalate (L ++ [e]) = ['/'].intercalate L ++ '/' :: e := by
  induction L with
  | nil => contradiction
  | cons x L ih =>
    cases L with
    | nil => simp [List.intercalate_cons_cons]
    | cons y L =>
      rw [List.cons_append, List.cons_append, List.intercalate_cons_cons, ← List.cons_append,
        ih (List.cons_ne_nil _ _), List.intercalate_cons_cons]
      simp

theorem elements_intercalate {L : List (List Char)} (hL : L ≠ []) (h : ∀ e ∈ L, '/' ∉ e) :
    elements (['/'].intercalate L) = L := by
  induction L with
  | nil => contradiction
  | cons e L ih =>
    cases L with
    | nil => rw [List.intercalate_singleton, elements_of_not_slash (h e List.mem_cons_self)]
    | cons e' L =>
      rw [List.intercalate_cons_cons, List.append_assoc, List.singleton_append,
        elements_append_slash, elements_of_not_slash (h e List.mem_cons_self),
        ih (List.cons_ne_nil _ _) fun x hx => h x (List.mem_cons_of_mem _ hx)]
      rfl

/-! ### `Clean`'s pass -/

/-- The elements `Clean` keeps, last first: plain ones after a run of `..`,
which a rooted path never keeps. -/
def Valid (rooted : Bool) (ks : List (List Char)) : Prop :=
  ∃ rest n, ks = rest ++ List.replicate n ['.', '.'] ∧ (∀ e ∈ rest, Plain e) ∧
    (rooted = true → n = 0)

variable {r : Bool} {ks : List (List Char)} {e : List Char}

theorem plain_of_length (hlen : 3 ≤ e.length) (hslash : '/' ∉ e) : Plain e := by
  have hshort : ∀ l : List Char, l.length < 3 → e ≠ l := by
    rintro l hl rfl
    omega
  exact ⟨hshort _ (by simp), hslash, hshort _ (by simp), hshort _ (by simp)⟩

theorem cleanStep_plain (he : Plain e) : cleanStep r ks e = e :: ks := by
  obtain ⟨hne, -, hdot, hdots⟩ := he
  simp [cleanStep, hne, hdot, hdots]

theorem foldl_cleanStep_plain {es : List (List Char)} (hes : ∀ e ∈ es, Plain e) :
    es.foldl (cleanStep r) ks = es.reverse ++ ks := by
  induction es generalizing ks with
  | nil => rfl
  | cons e es ih =>
    rw [List.foldl_cons, cleanStep_plain (hes e List.mem_cons_self),
      ih fun x hx => hes x (List.mem_cons_of_mem _ hx)]
    simp

/-- In a relative path a run of `..` with nothing before it is kept. -/
theorem foldl_cleanStep_dots (k n : ℕ) (hr : r = false ∨ 0 < k ∨ n = 0) :
    (List.replicate n ['.', '.']).foldl (cleanStep r) (List.replicate k ['.', '.']) =
      List.replicate (k + n) ['.', '.'] := by
  induction n generalizing k with
  | zero => rfl
  | succ n ih =>
    have hstep : cleanStep r (List.replicate k ['.', '.']) ['.', '.'] =
        List.replicate (k + 1) ['.', '.'] := by
      cases k with
      | zero =>
        simp only [Nat.lt_irrefl, Nat.add_one_ne_zero, or_false] at hr
        simp [cleanStep, hr]
      | succ k => simp [cleanStep, List.replicate_succ]
    rw [List.replicate_succ, List.foldl_cons, hstep, ih (k + 1) (by omega)]
    congr 1
    omega

theorem valid_nil (r : Bool) : Valid r [] := ⟨[], 0, rfl, by simp, fun _ => rfl⟩

theorem Valid.cons (h : Valid r ks) (he : Plain e) : Valid r (e :: ks) := by
  obtain ⟨rest, n, rfl, hrest, hr⟩ := h
  refine ⟨e :: rest, n, rfl, fun x hx => ?_, hr⟩
  rcases List.mem_cons.mp hx with rfl | hx
  · exact he
  · exact hrest x hx

theorem Valid.mem (h : Valid r ks) {x : List Char} (hx : x ∈ ks) :
    x ≠ [] ∧ '/' ∉ x ∧ x ≠ ['.'] := by
  obtain ⟨rest, n, rfl, hrest, -⟩ := h
  rcases List.mem_append.mp hx with hx | hx
  · obtain ⟨h1, h2, h3, -⟩ := hrest x hx
    exact ⟨h1, h2, h3⟩
  · rw [List.eq_of_mem_replicate hx]
    decide

theorem valid_cleanStep (h : Valid r ks) (he : '/' ∉ e) : Valid r (cleanStep r ks e) := by
  by_cases hskip : e = [] ∨ e = ['.']
  · unfold cleanStep
    rw [if_pos hskip]
    exact h
  by_cases hdots : e = ['.', '.']
  · subst hdots
    obtain ⟨rest, n, rfl, hrest, hr⟩ := h
    cases rest with
    | cons x rest =>
      have hx : x ≠ ['.', '.'] := (hrest x List.mem_cons_self).2.2.2
      simp only [cleanStep, List.cons_append, hx, if_false]
      exact ⟨rest, n, rfl, fun y hy => hrest y (List.mem_cons_of_mem _ hy), hr⟩
    | nil =>
      cases n with
      | zero =>
        cases r
        · exact ⟨[], 1, by simp [cleanStep], by simp, by simp⟩
        · simpa [cleanStep] using valid_nil true
      | succ n =>
        refine ⟨[], n + 2, by simp [cleanStep, List.replicate_succ], by simp, ?_⟩
        intro hrt
        exact absurd (hr hrt) (Nat.succ_ne_zero n)
  · have hplain : Plain e := ⟨fun h => hskip (Or.inl h), he, fun h => hskip (Or.inr h), hdots⟩
    rw [cleanStep_plain hplain]
    exact h.cons hplain

theorem valid_foldl {es : List (List Char)} (h : Valid r ks) (hes : ∀ e ∈ es, '/' ∉ e) :
    Valid r (es.foldl (cleanStep r) ks) := by
  induction es generalizing ks with
  | nil => exact h
  | cons e es ih =>
    exact ih (valid_cleanStep h (hes e List.mem_cons_self)) fun x hx => hes x (List.mem_cons_of_mem _ hx)

theorem valid_kept (p : List Char) : Valid (rooted p) (kept p) :=
  valid_foldl (valid_nil _) fun _ he => not_slash_of_mem_elements he

theorem Valid.foldl_reverse (h : Valid r ks) : ks.reverse.foldl (cleanStep r) [] = ks := by
  obtain ⟨rest, n, rfl, hrest, hr⟩ := h
  have hdots := foldl_cleanStep_dots (r := r) 0 n (by cases r <;> simp_all)
  rw [List.replicate_zero, Nat.zero_add] at hdots
  rw [List.reverse_append, List.reverse_replicate, List.foldl_append, hdots,
    foldl_cleanStep_plain fun x hx => hrest x (List.mem_reverse.mp hx), List.reverse_reverse]

theorem cleanStep_nil (r : Bool) (ks : List (List Char)) : cleanStep r ks [] = ks := by
  simp [cleanStep]

/-! ### Writing the kept elements -/

theorem prefix_body (h : Valid r ks) (hks : ks ≠ []) :
    ∃ x, x <+: ['/'].intercalate ks.reverse ∧ x ≠ [] ∧ '/' ∉ x ∧ x ≠ ['.'] := by
  obtain ⟨x, xs, hx⟩ := List.exists_cons_of_ne_nil (List.reverse_ne_nil_iff.mpr hks)
  have hmem : x ∈ ks := List.mem_reverse.mp (hx ▸ List.mem_cons_self)
  exact ⟨x, hx ▸ prefix_intercalate x xs, h.mem hmem⟩

theorem body_ne_nil (h : Valid r ks) (hks : ks ≠ []) : ['/'].intercalate ks.reverse ≠ [] := by
  obtain ⟨x, hpre, hx, -⟩ := prefix_body h hks
  intro hb
  rw [hb, List.prefix_nil] at hpre
  exact hx hpre

theorem body_ne_singleton (h : Valid r ks) (hks : ks ≠ []) {c : Char} (hc : c = '.' ∨ c = '/') :
    ['/'].intercalate ks.reverse ≠ [c] := by
  obtain ⟨x, ⟨t, ht⟩, hx, hslash, hdot⟩ := prefix_body h hks
  intro hb
  rw [hb, List.append_eq_singleton_iff] at ht
  rcases ht with ⟨rfl, -⟩ | ⟨rfl, -⟩
  · exact hx rfl
  · rcases hc with rfl | rfl
    · exact hdot rfl
    · exact hslash List.mem_cons_self

theorem rooted_append {p : List Char} (q : List Char) (hp : p ≠ []) :
    rooted (p ++ q) = rooted p := by
  obtain ⟨c, p, rfl⟩ := List.exists_cons_of_ne_nil hp
  rfl

theorem rooted_eq_false {p : List Char} (hp : p ≠ []) (h : '/' ∉ p) : rooted p = false := by
  obtain ⟨c, p, rfl⟩ := List.exists_cons_of_ne_nil hp
  have hc : c ≠ '/' := fun hc => h (hc ▸ List.mem_cons_self)
  simp [rooted, hc]

theorem rooted_render (h : Valid r ks) : rooted (render r ks) = r := by
  cases r with
  | true => rfl
  | false =>
    simp only [render, Bool.false_eq_true, if_false]
    split_ifs with hb
    · rfl
    · -- the body starts with a kept element, which has no slash
      have hks : ks ≠ [] := by
        rintro rfl
        exact hb rfl
      obtain ⟨x, ⟨t, ht⟩, hx, hslash, -⟩ := prefix_body h hks
      rw [← ht, rooted_append _ hx, rooted_eq_false hx hslash]

theorem kept_render (h : Valid r ks) : kept (render r ks) = ks := by
  rw [kept, rooted_render h]
  by_cases hks : ks = []
  · subst hks
    cases r <;> rfl
  · have hel : elements (['/'].intercalate ks.reverse) = ks.reverse :=
      elements_intercalate (List.reverse_ne_nil_iff.mpr hks) fun x hx =>
        (h.mem (List.mem_reverse.mp hx)).2.1
    cases r with
    | false =>
      simp only [render, Bool.false_eq_true, if_false, if_neg (body_ne_nil h hks), hel]
      exact h.foldl_reverse
    | true =>
      simp only [render, if_true, elements_slash_cons, hel, List.foldl_cons, cleanStep_nil]
      exact h.foldl_reverse

theorem dirPrefix_of_ne {x : List Char} (h1 : x ≠ ['.']) (h2 : x ≠ ['/']) :
    dirPrefix x = x ++ ['/'] := by
  simp [dirPrefix, h1, h2]

theorem render_cons (h : Valid r ks) (he : Plain e) :
    render r (e :: ks) = dirPrefix (render r ks) ++ e := by
  by_cases hks : ks = []
  · subst hks
    cases r <;> simp [render, dirPrefix, he.1]
  · have hbody : ['/'].intercalate (e :: ks).reverse = ['/'].intercalate ks.reverse ++ '/' :: e := by
      rw [List.reverse_cons, intercalate_append_singleton _ _ (List.reverse_ne_nil_iff.mpr hks)]
    have hne := body_ne_nil h hks
    cases r with
    | false =>
      have hdir := dirPrefix_of_ne (body_ne_singleton h hks (Or.inl rfl))
        (body_ne_singleton h hks (Or.inr rfl))
      simp only [render, Bool.false_eq_true, if_false, hbody, if_neg hne, hdir]
      simp
    | true =>
      have hdir : dirPrefix ('/' :: ['/'].intercalate ks.reverse) =
          '/' :: ['/'].intercalate ks.reverse ++ ['/'] :=
        dirPrefix_of_ne (by simp [hne]) (by simp [hne])
      simp only [render, if_true, hbody, hdir]
      simp

/-! ### `Clean` and `Join` of a plain element -/

theorem kept_append_plain {p : List Char} (hp : p ≠ []) (he : Plain e) :
    kept (p ++ '/' :: e) = e :: kept p := by
  rw [kept, rooted_append _ hp, elements_append_slash, elements_of_not_slash he.2.1,
    List.foldl_append, List.foldl_cons, List.foldl_nil, cleanStep_plain he]
  rfl

theorem kept_of_plain (he : Plain e) : kept e = [e] := by
  rw [kept, elements_of_not_slash he.2.1, List.foldl_cons, List.foldl_nil, cleanStep_plain he]

theorem join_plain (a : List Char) (he : Plain e) : join a e = render (rooted a) (e :: kept a) := by
  unfold join
  by_cases ha : a = []
  · subst ha
    rw [if_neg (not_not.mpr rfl), if_pos he.1, clean, rooted_eq_false he.1 he.2.1, kept_of_plain he]
    rfl
  · rw [if_pos ha, clean, rooted_append _ ha, kept_append_plain ha he]

theorem dirPrefix_append_plain (c : List Char) (he : Plain e) :
    dirPrefix (dirPrefix c ++ e) = dirPrefix c ++ e ++ ['/'] := by
  have hsingle : ∀ x, (x = '.' ∨ x = '/') → dirPrefix c ++ e ≠ [x] := by
    intro x hx hce
    rcases List.append_eq_singleton_iff.mp hce with ⟨-, rfl⟩ | ⟨-, rfl⟩
    · rcases hx with rfl | rfl
      · exact he.2.2.1 rfl
      · exact he.2.1 List.mem_cons_self
    · exact he.1 rfl
  exact dirPrefix_of_ne (hsingle _ (Or.inl rfl)) (hsingle _ (Or.inr rfl))

/-- Two plain elements joined one after the other onto a path `a`: the cleaned
`a`, then the two elements, each after one slash. -/
theorem join_join_plain (a : List Char) {e₁ e₂ : List Char} (he₁ : Plain e₁) (he₂ : Plain e₂) :
    join (join a e₁) e₂ = dirPrefix (clean a) ++ e₁ ++ '/' :: e₂ := by
  have hv := valid_kept a
  have hv₁ := hv.cons he₁
  rw [join_plain a he₁, join_plain _ he₂, rooted_render hv₁, kept_render hv₁,
    render_cons hv₁ he₂, render_cons hv he₁, ← clean, dirPrefix_append_plain _ he₁]
  simp

/-- What `Join` puts before an element is empty or ends in a slash, and is cut
from the cleaned directory. -/
theorem dirPrefix_cases (c : List Char) :
    dirPrefix c = [] ∨ ∃ u, dirPrefix c = u ++ ['/'] ∧ u <:+: c := by
  unfold dirPrefix
  split_ifs with h1 h2
  · exact .inl rfl
  · exact .inr ⟨[], rfl, List.nil_infix⟩
  · exact .inr ⟨c, rfl, List.infix_refl c⟩

/-- A word of two characters or more without a slash occurs in what `Join`
puts before an element just when it occurs in the cleaned directory. -/
theorem infix_dirPrefix_iff {w : List Char} (c : List Char) (hw : '/' ∉ w) (hlen : 2 ≤ w.length) :
    w <:+: dirPrefix c ↔ w <:+: c := by
  unfold dirPrefix
  split_ifs with h1 h2
  · subst h1
    have hshort : ∀ l : List Char, l.length ≤ 1 → ¬w <:+: l := fun l hl hinf => by
      have := hinf.length_le
      omega
    exact iff_of_false (hshort _ (by simp)) (hshort _ (by simp))
  · subst h2
    rfl
  · rw [List.infix_concat_iff]
    refine ⟨fun hinf => hinf.resolve_left fun hsuf => hw ?_, .inr⟩
    obtain ⟨t, ht⟩ := hsuf
    rcases List.eq_nil_or_concat w with rfl | ⟨w', x, rfl⟩
    · simp at hlen
    · rw [List.concat_eq_append, ← List.append_assoc] at ht
      have hx := (List.append_inj' ht rfl).2
      simp only [List.cons.injEq, and_true] at hx
      simp [hx]

end Stenographer.Lib.FilePath
