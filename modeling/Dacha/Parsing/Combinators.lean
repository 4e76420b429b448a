import Mathlib

/-!
# Parser combinators (`parsing/src/lib.rs`)

| here | there |
| --- | --- |
| `Reply`, `Parser` | `ParseResult2<T, I>`, that is `Result<(T, I)>` on a byte slice |
| `bind` | `seq!` (`:430-441`): each `c.next(p)?` runs `p` on the rest and stops at an error |
| `like`, `oneOf` | `like` (`:528-542`), `one_of` (`:124-129`) |
| `takeWhile`, `takeWhile1` | `take_while`, `take_while1` (`:596-615`), with `ParserFeed::take_while` |
| `tag` | `tag` (`:653-676`), with `strip_prefix` |
| `opt`, `many`, `delimited` | `opt`, `many`, `delimited` (`:715-788`) |
| `alt` | `alt!` (`:387-427`) with two branches |
| `complete` | `complete` (`:546-572`) |
| `slice`, `map`, `mapOrPanic` | `slice` (`:807-812`), `map` (`:509-515`) |
| `sliceWith`, `takeExact` | `slice_with` (`:814-820`), `take_exact` (`:587-594`) |
| `beU8` | `be_u8` (`binary.rs:36-43`) |
| `fail` | `return Err(err_msg(..))` inside `seq!` |

A parser takes the input and returns a value with the rest, or an error. The text of the error
is not modelled: every caller in the modelled code replaces it with a message of its own, so a
failure is `reject`. Where a caller passes the error on as it is (the DER reader), the model
says only that it was a parse error. A panic inside a parser (an `unwrap` in the function of a `map`) is not an
error value, and no combinator recovers from it: it is the third outcome, `panic`, which every
combinator passes on.

`many` calls its parser until it fails, and would loop forever on a parser that succeeds
without consuming. Here it runs on fuel `input.length + 1`; when every success consumes input,
that fuel is never used up (`many.loop_eq_of_consumes`), so the model is the source's loop.
`delimited` runs the same way, on a delimiter that consumes.
-/

namespace Dacha.Parsing

/-- What one parser call gives. -/
inductive Reply (σ α : Type) where
  | ok (value : α) (rest : List σ)
  | reject
  | panic (msg : String)
  deriving DecidableEq, Repr

def Parser (σ α : Type) : Type := List σ → Reply σ α

namespace Reply

variable {σ α β : Type}

def map (f : α → β) : Reply σ α → Reply σ β
  | .ok v rest => .ok (f v) rest
  | .reject => .reject
  | .panic msg => .panic msg

/-- The call did not panic. -/
def NoPanic : Reply σ α → Prop
  | .panic _ => False
  | _ => True

@[simp] theorem noPanic_ok (v : α) (rest : List σ) : (Reply.ok v rest).NoPanic := trivial
@[simp] theorem noPanic_reject : (Reply.reject : Reply σ α).NoPanic := trivial
@[simp] theorem not_noPanic_panic (msg : String) : ¬ (Reply.panic msg : Reply σ α).NoPanic :=
  id

@[simp] theorem noPanic_map (f : α → β) (r : Reply σ α) : (r.map f).NoPanic ↔ r.NoPanic := by
  cases r <;> simp [map]

end Reply

namespace Parser

variable {σ α β : Type}

def bind (p : Parser σ α) (f : α → Parser σ β) : Parser σ β := fun input =>
  match p input with
  | .ok v rest => f v rest
  | .reject => .reject
  | .panic msg => .panic msg

instance : Monad (Parser σ) where
  pure v := fun input => .ok v input
  bind := bind

@[simp] theorem pure_apply (v : α) (input : List σ) :
    (Pure.pure v : Parser σ α) input = .ok v input := rfl

theorem bind_apply (p : Parser σ α) (f : α → Parser σ β) (input : List σ) :
    (p >>= f) input = match p input with
      | .ok v rest => f v rest
      | .reject => .reject
      | .panic msg => .panic msg := rfl

@[simp] theorem bind_apply_of_ok {p : Parser σ α} {input rest : List σ} {v : α}
    (h : p input = .ok v rest) (f : α → Parser σ β) : (p >>= f) input = f v rest := by
  rw [bind_apply, h]

@[simp] theorem bind_apply_of_reject {p : Parser σ α} {input : List σ} (h : p input = .reject)
    (f : α → Parser σ β) : (p >>= f) input = .reject := by
  rw [bind_apply, h]

@[simp] theorem bind_apply_of_panic {p : Parser σ α} {input : List σ} {msg : String}
    (h : p input = .panic msg) (f : α → Parser σ β) : (p >>= f) input = .panic msg := by
  rw [bind_apply, h]

/-- `like`: one item that `f` accepts. -/
def like (f : σ → Bool) : Parser σ σ
  | [] => .reject
  | x :: rest => if f x then .ok x rest else .reject

/-- `one_of`: one item of `s`. -/
def oneOf [DecidableEq σ] (s : List σ) : Parser σ σ := like (· ∈ s)

/-- `take_while`: the longest prefix that `f` accepts. -/
def takeWhile (f : σ → Bool) : Parser σ (List σ) := fun input =>
  .ok (input.takeWhile f) (input.dropWhile f)

/-- `take_while1`: as `take_while`, refusing an empty prefix. -/
def takeWhile1 (f : σ → Bool) : Parser σ (List σ) := fun input =>
  if (input.takeWhile f).isEmpty then .reject else .ok (input.takeWhile f) (input.dropWhile f)

/-- `tag`: the exact items of `t`. -/
def tag [DecidableEq σ] (t : List σ) : Parser σ Unit := fun input =>
  if t.isPrefixOf input then .ok () (input.drop t.length) else .reject

def map (p : Parser σ α) (f : α → β) : Parser σ β := fun input => (p input).map f

/-- `map` whose function may panic (an `unwrap` inside it): `f` gives the value, or the text
of the panic. -/
def mapOrPanic (p : Parser σ α) (f : α → Except String β) : Parser σ β := fun input =>
  match p input with
  | .ok v rest =>
    match f v with
    | .ok w => .ok w rest
    | .error msg => .panic msg
  | .reject => .reject
  | .panic msg => .panic msg

/-- `slice`: what `p` consumed, in place of its value. -/
def slice (p : Parser σ α) : Parser σ (List σ) := fun input =>
  match p input with
  | .ok _ rest => .ok (input.take (input.length - rest.length)) rest
  | .reject => .reject
  | .panic msg => .panic msg

def opt (p : Parser σ α) : Parser σ (Option α) := fun input =>
  match p input with
  | .ok v rest => .ok (some v) rest
  | .reject => .ok none input
  | .panic msg => .panic msg

/-- The first branch of `alt!` that succeeds. -/
def alt (p q : Parser σ α) : Parser σ α := fun input =>
  match p input with
  | .ok v rest => .ok v rest
  | .reject => q input
  | .panic msg => .panic msg

/-- The loop of `many`, on fuel. -/
def many.loop (p : Parser σ α) : Nat → List σ → Reply σ (List α)
  | 0, input => .ok [] input
  | fuel + 1, input =>
    match p input with
    | .ok v rest => (many.loop p fuel rest).map (v :: ·)
    | .reject => .ok [] input
    | .panic msg => .panic msg

def many (p : Parser σ α) : Parser σ (List α) := fun input => many.loop p (input.length + 1) input

/-- The loop of `delimited` after its first item, on fuel: a delimiter and an item each time;
when no item follows a delimiter, the delimiter is given back. -/
def delimited.loop (p : Parser σ α) (d : Parser σ β) : Nat → List σ → Reply σ (List α)
  | 0, input => .ok [] input
  | fuel + 1, input =>
    match d input with
    | .ok _ rest =>
      match p rest with
      | .ok v rest' => (delimited.loop p d fuel rest').map (v :: ·)
      | .reject => .ok [] input
      | .panic msg => .panic msg
    | .reject => .ok [] input
    | .panic msg => .panic msg

/-- `delimited`: items of `p` separated by `d`, possibly none. -/
def delimited (p : Parser σ α) (d : Parser σ β) : Parser σ (List α) := fun input =>
  match p input with
  | .ok v rest => (delimited.loop p d (rest.length + 1) rest).map (v :: ·)
  | .reject => .ok [] input
  | .panic msg => .panic msg

/-- `complete`: `p`, refusing to leave input behind. -/
def complete (p : Parser σ α) : Parser σ α := fun input =>
  match p input with
  | .ok v [] => .ok v []
  | .ok _ (_ :: _) => .reject
  | .reject => .reject
  | .panic msg => .panic msg

/-- An error returned by the grammar itself. -/
def fail : Parser σ α := fun _ => .reject

/-- `be_u8`: one byte. -/
def beU8 : Parser UInt8 UInt8
  | [] => .reject
  | b :: rest => .ok b rest

/-- `take_exact`: the next `n` items. -/
def takeExact (n : Nat) : Parser σ (List σ) := fun input =>
  if input.length < n then .reject else .ok (input.take n) (input.drop n)

/-- `slice_with`: the value of `p` together with what it consumed. -/
def sliceWith (p : Parser σ α) : Parser σ (α × List σ) := fun input =>
  match p input with
  | .ok v rest => .ok (v, input.take (input.length - rest.length)) rest
  | .reject => .reject
  | .panic msg => .panic msg

@[simp] theorem fail_apply (input : List σ) : (fail : Parser σ α) input = .reject := rfl

@[simp] theorem beU8_nil : beU8 [] = .reject := rfl

@[simp] theorem beU8_cons (b : UInt8) (rest : List UInt8) : beU8 (b :: rest) = .ok b rest := rfl

theorem map_apply_of_ok {p : Parser σ α} {input rest : List σ} {v : α}
    (h : p input = .ok v rest) (f : α → β) : map p f input = .ok (f v) rest := by
  simp [map, h, Reply.map]

@[simp] theorem takeExact_append (xs rest : List σ) :
    takeExact xs.length (xs ++ rest) = .ok xs rest := by
  simp [takeExact]

/-- What `sliceWith p` reports as consumed is the part of the input before the rest. -/
theorem sliceWith_append {p : Parser σ α} {xs rest : List σ} {v : α}
    (h : p (xs ++ rest) = .ok v rest) : sliceWith p (xs ++ rest) = .ok (v, xs) rest := by
  simp [sliceWith, h]

/-! ## Panics

`PanicsOnly P p`: every panic of `p` has a message that `P` accepts. With `P` false it says `p`
never panics; the combinators pass it on, so a grammar's panics are those of its leaves. -/

/-- Every panic of `p` has a message that `P` accepts. -/
def PanicsOnly (P : String → Prop) (p : Parser σ α) : Prop :=
  ∀ input msg, p input = .panic msg → P msg

section PanicsOnly

variable {P : String → Prop}

theorem PanicsOnly.of_noPanic {p : Parser σ α} (h : ∀ input, (p input).NoPanic) :
    PanicsOnly P p := by
  intro input msg hp
  have := h input
  rw [hp] at this
  exact this.elim

theorem PanicsOnly.bind {p : Parser σ α} {f : α → Parser σ β} (hp : PanicsOnly P p)
    (hf : ∀ v, PanicsOnly P (f v)) : PanicsOnly P (p >>= f) := by
  intro input msg h
  rw [bind_apply] at h
  split at h
  · exact hf _ _ _ h
  · cases h
  · next msg' hpanic =>
    cases h
    exact hp _ _ hpanic

theorem PanicsOnly.pure (v : α) : PanicsOnly P (Pure.pure v : Parser σ α) :=
  PanicsOnly.of_noPanic fun _ => trivial

theorem PanicsOnly.like (f : σ → Bool) : PanicsOnly P (like f) := by
  refine PanicsOnly.of_noPanic fun input => ?_
  cases input with
  | nil => trivial
  | cons x rest => by_cases hx : f x <;> simp [Parser.like, hx]

theorem PanicsOnly.oneOf [DecidableEq σ] (s : List σ) : PanicsOnly P (oneOf s) :=
  PanicsOnly.like _

theorem PanicsOnly.takeWhile (f : σ → Bool) : PanicsOnly P (takeWhile f) :=
  PanicsOnly.of_noPanic fun _ => trivial

theorem PanicsOnly.takeWhile1 (f : σ → Bool) : PanicsOnly P (takeWhile1 f) := by
  refine PanicsOnly.of_noPanic fun input => ?_
  unfold Parser.takeWhile1
  split <;> trivial

theorem PanicsOnly.tag [DecidableEq σ] (t : List σ) : PanicsOnly P (tag t) := by
  refine PanicsOnly.of_noPanic fun input => ?_
  unfold Parser.tag
  split <;> trivial

theorem PanicsOnly.map {p : Parser σ α} (hp : PanicsOnly P p) (f : α → β) :
    PanicsOnly P (map p f) := by
  intro input msg h
  unfold Parser.map Reply.map at h
  split at h <;> cases h
  exact hp _ _ ‹_›

theorem PanicsOnly.mapOrPanic {p : Parser σ α} {f : α → Except String β} (hp : PanicsOnly P p)
    (hf : ∀ v msg, f v = .error msg → P msg) : PanicsOnly P (mapOrPanic p f) := by
  intro input msg h
  unfold Parser.mapOrPanic at h
  split at h
  · split at h
    · cases h
    · cases h
      exact hf _ _ ‹_›
  · cases h
  · cases h
    exact hp _ _ ‹_›

theorem PanicsOnly.slice {p : Parser σ α} (hp : PanicsOnly P p) : PanicsOnly P (slice p) := by
  intro input msg h
  unfold Parser.slice at h
  split at h <;> cases h
  exact hp _ _ ‹_›

theorem PanicsOnly.opt {p : Parser σ α} (hp : PanicsOnly P p) : PanicsOnly P (opt p) := by
  intro input msg h
  unfold Parser.opt at h
  split at h <;> cases h
  exact hp _ _ ‹_›

theorem PanicsOnly.alt {p q : Parser σ α} (hp : PanicsOnly P p) (hq : PanicsOnly P q) :
    PanicsOnly P (alt p q) := by
  intro input msg h
  unfold Parser.alt at h
  split at h
  · cases h
  · exact hq _ _ h
  · cases h
    exact hp _ _ ‹_›

theorem PanicsOnly.many {p : Parser σ α} (hp : PanicsOnly P p) : PanicsOnly P (many p) := by
  -- the loop panics only where an iteration of `p` does; induction on the fuel
  suffices h : ∀ fuel input msg, many.loop p fuel input = .panic msg → P msg from
    fun input => h _ input
  intro fuel
  induction fuel with
  | zero => intro input msg h; cases h
  | succ fuel ih =>
    intro input msg h
    unfold many.loop at h
    split at h
    · next v rest _ =>
      cases hloop : many.loop p fuel rest <;> rw [hloop] at h <;> cases h
      exact ih _ _ hloop
    · cases h
    · cases h
      exact hp _ _ ‹_›

theorem PanicsOnly.complete {p : Parser σ α} (hp : PanicsOnly P p) :
    PanicsOnly P (complete p) := by
  intro input msg h
  unfold Parser.complete at h
  split at h <;> cases h
  exact hp _ _ ‹_›

theorem complete_of_panic {p : Parser σ α} {input : List σ} {msg : String}
    (h : p input = .panic msg) : complete p input = .panic msg := by
  unfold Parser.complete
  rw [h]

end PanicsOnly

/-! ## Consumption

The fuel of `many` is `input.length + 1`. A parser that consumes on every success succeeds at
most `input.length` times in a row, so that fuel is never used up: any larger fuel gives the
same result (`many.loop_eq_of_consumes`), which is the result of the source's unbounded loop. -/

/-- On success `p` leaves no more input than it was given. -/
def Shortens (p : Parser σ α) : Prop :=
  ∀ input v rest, p input = .ok v rest → rest.length ≤ input.length

/-- On success `p` leaves less input than it was given. -/
def Consumes (p : Parser σ α) : Prop :=
  ∀ input v rest, p input = .ok v rest → rest.length < input.length

theorem Consumes.shortens {p : Parser σ α} (hp : Consumes p) : Shortens p :=
  fun input v rest h => Nat.le_of_lt (hp input v rest h)

theorem many.loop_congr {p : Parser σ α} (hp : Consumes p) :
    ∀ fuel fuel' input, input.length < fuel → input.length < fuel' →
      many.loop p fuel input = many.loop p fuel' input := by
  intro fuel
  induction fuel with
  | zero => intro _ _ h; omega
  | succ fuel ih =>
    intro fuel' input h h'
    cases fuel' with
    | zero => omega
    | succ fuel' =>
      unfold many.loop
      split
      · next v rest hok =>
        have hlt := hp _ _ _ hok
        rw [ih fuel' rest (by omega) (by omega)]
      · rfl
      · rfl

theorem many.loop_eq_of_consumes {p : Parser σ α} (hp : Consumes p) {fuel : Nat} {input : List σ}
    (h : input.length < fuel) : many.loop p fuel input = many p input :=
  many.loop_congr hp fuel _ input h (Nat.lt_succ_self _)

theorem Consumes.like (f : σ → Bool) : Consumes (like f) := by
  intro input v rest h
  cases input with
  | nil => cases h
  | cons x xs =>
    by_cases hx : f x
    · simp only [Parser.like, hx, if_true, Reply.ok.injEq] at h
      rw [← h.2]
      simp
    · simp [Parser.like, hx] at h

theorem Consumes.oneOf [DecidableEq σ] (s : List σ) : Consumes (oneOf s) := Consumes.like _

theorem Consumes.takeWhile1 (f : σ → Bool) : Consumes (takeWhile1 f) := by
  intro input v rest h
  unfold Parser.takeWhile1 at h
  split at h
  · cases h
  · next hne =>
    cases h
    have hlen := congrArg List.length (@List.takeWhile_append_dropWhile _ f input)
    rw [List.length_append] at hlen
    have hpos : 0 < (input.takeWhile f).length := by
      cases hw : input.takeWhile f with
      | nil => rw [hw] at hne; simp at hne
      | cons _ _ => simp
    omega

theorem Consumes.tag [DecidableEq σ] {t : List σ} (ht : t ≠ []) : Consumes (tag t) := by
  intro input v rest h
  unfold Parser.tag at h
  split at h
  · next hpre =>
    cases h
    have hle := (List.isPrefixOf_iff_prefix.mp hpre).length_le
    have hpos : 0 < t.length := List.length_pos_iff.mpr ht
    simp only [List.length_drop]
    omega
  · cases h

theorem Shortens.takeWhile (f : σ → Bool) : Shortens (takeWhile f) := by
  intro input v rest h
  cases h
  exact (List.dropWhile_suffix f).length_le

theorem Shortens.pure (v : α) : Shortens (Pure.pure v : Parser σ α) := by
  intro input w rest h
  cases h
  exact Nat.le_refl _

theorem Shortens.opt {p : Parser σ α} (hp : Shortens p) : Shortens (opt p) := by
  intro input v rest h
  unfold Parser.opt at h
  split at h <;> cases h
  · exact hp _ _ _ ‹_›
  · exact Nat.le_refl _

theorem Shortens.many {p : Parser σ α} (hp : Shortens p) : Shortens (many p) := by
  suffices h : ∀ fuel input v rest, many.loop p fuel input = .ok v rest → rest.length ≤ input.length
    from fun input => h _ input
  intro fuel
  induction fuel with
  | zero => intro input v rest h; cases h; exact Nat.le_refl _
  | succ fuel ih =>
    intro input v rest h
    unfold many.loop at h
    split at h
    · next w rest' hok =>
      cases hloop : many.loop p fuel rest' <;> rw [hloop] at h <;> cases h
      exact le_trans (ih _ _ _ hloop) (hp _ _ _ hok)
    · cases h; exact Nat.le_refl _
    · cases h

theorem Shortens.bind {p : Parser σ α} {f : α → Parser σ β} (hp : Shortens p)
    (hf : ∀ v, Shortens (f v)) : Shortens (p >>= f) := by
  intro input v rest h
  rw [bind_apply] at h
  split at h
  · next w mid hok => exact le_trans (hf w _ _ _ h) (hp _ _ _ hok)
  · cases h
  · cases h

theorem Consumes.bind_left {p : Parser σ α} {f : α → Parser σ β} (hp : Consumes p)
    (hf : ∀ v, Shortens (f v)) : Consumes (p >>= f) := by
  intro input v rest h
  rw [bind_apply] at h
  split at h
  · next w mid hok => exact lt_of_le_of_lt (hf w _ _ _ h) (hp _ _ _ hok)
  · cases h
  · cases h

theorem Consumes.bind_right {p : Parser σ α} {f : α → Parser σ β} (hp : Shortens p)
    (hf : ∀ v, Consumes (f v)) : Consumes (p >>= f) := by
  intro input v rest h
  rw [bind_apply] at h
  split at h
  · next w mid hok => exact lt_of_lt_of_le (hf w _ _ _ h) (hp _ _ _ hok)
  · cases h
  · cases h

theorem Consumes.alt {p q : Parser σ α} (hp : Consumes p) (hq : Consumes q) :
    Consumes (alt p q) := by
  intro input v rest h
  unfold Parser.alt at h
  split at h
  · cases h; exact hp _ _ _ ‹_›
  · exact hq _ _ _ h
  · cases h

theorem Shortens.map {p : Parser σ α} (hp : Shortens p) (f : α → β) : Shortens (map p f) := by
  intro input v rest h
  unfold Parser.map Reply.map at h
  split at h <;> cases h
  exact hp _ _ _ ‹_›

theorem Shortens.slice {p : Parser σ α} (hp : Shortens p) : Shortens (slice p) := by
  intro input v rest h
  unfold Parser.slice at h
  split at h <;> cases h
  exact hp _ _ _ ‹_›

theorem Consumes.slice {p : Parser σ α} (hp : Consumes p) : Consumes (slice p) := by
  intro input v rest h
  unfold Parser.slice at h
  split at h <;> cases h
  exact hp _ _ _ ‹_›

end Parser

end Dacha.Parsing
