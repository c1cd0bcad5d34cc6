import ComponentGraph.Tag.Spelling
/-!
# Kinds of tags

Three tables: elements of the page language itself, components that the framework provides,
and elements that never have content.
-/

namespace ComponentGraph.Tag

/-- Elements of HTML and of SVG, as they are written. -/
def nativeTags : List String :=
  ["a", "abbr", "address", "area", "article", "aside", "audio", "b", "base", "bdi", "bdo",
   "blockquote", "body", "br", "button", "canvas", "caption", "cite", "code", "col", "colgroup",
   "data", "datalist", "dd", "del", "details", "dfn", "dialog", "div", "dl", "dt", "em", "embed",
   "fieldset", "figcaption", "figure", "footer", "form", "h1", "h2", "h3", "h4", "h5", "h6",
   "head", "header", "hgroup", "hr", "html", "i", "iframe", "img", "input", "ins", "kbd", "label",
   "legend", "li", "link", "main", "map", "mark", "menu", "meta", "meter", "nav", "noscript",
   "object", "ol", "optgroup", "option", "output", "p", "param", "picture", "pre", "progress", "q",
   "rp", "rt", "ruby", "s", "samp", "script", "search", "section", "select", "small", "source",
   "span", "strong", "style", "sub", "summary", "sup", "table", "tbody", "td", "textarea", "tfoot",
   "th", "thead", "time", "title", "tr", "track", "u", "ul", "var", "video", "wbr",
   "svg", "circle", "clipPath", "defs", "desc", "ellipse", "filter", "foreignObject", "g", "image",
   "line", "linearGradient", "marker", "mask", "path", "pattern", "polygon", "polyline",
   "radialGradient", "rect", "stop", "symbol", "text", "textPath", "tspan", "use", "view"]

/-- Components of the framework, in kebab case. -/
def builtinTags : List String :=
  ["template", "slot", "component", "transition", "transition-group", "keep-alive", "teleport",
   "suspense"]

/-- Elements without content and without a closing tag, in lower case. -/
def voidTags : List String :=
  ["area", "base", "br", "col", "embed", "hr", "img", "input", "link", "meta", "param", "source",
   "track", "wbr"]

/-- A native tag is plain markup only in its own spelling. -/
def isNative (tag : String) : Bool := nativeTags.contains tag

/-- A builtin may be spelled in any case that leads to its kebab form. -/
def isBuiltin (tag : String) : Bool := builtinTags.contains (kebab tag)

/-- A void tag may be spelled in any mixture of cases. -/
def isVoid (tag : String) : Bool := voidTags.contains (Text.foldCase tag)

/-- Plain markup is never looked for among the components. -/
def isPlainMarkup (tag : String) : Bool := isNative tag || isBuiltin tag

end ComponentGraph.Tag
