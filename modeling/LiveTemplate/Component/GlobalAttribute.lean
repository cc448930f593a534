/-!
The attributes that every element of a page may carry: the accessibility and data groups and the
standard list.
-/

namespace LiveTemplate.GlobalAttribute

set_option autoImplicit false

def groups : List String := ["aria-", "data-"]

def names : List String := [
  "xml:lang", "xml:base", "onabort", "onautocomplete", "onautocompleteerror", "onblur", "oncancel",
  "oncanplay", "oncanplaythrough", "onchange", "onclick", "onclose", "oncontextmenu", "oncuechange",
  "ondblclick", "ondrag", "ondragend", "ondragenter", "ondragleave", "ondragover", "ondragstart",
  "ondrop", "ondurationchange", "onemptied", "onended", "onerror", "onfocus", "oninput",
  "oninvalid", "onkeydown", "onkeypress", "onkeyup", "onload", "onloadeddata", "onloadedmetadata",
  "onloadstart", "onmousedown", "onmouseenter", "onmouseleave", "onmousemove", "onmouseout",
  "onmouseover", "onmouseup", "onmousewheel", "onpause", "onplay", "onplaying", "onprogress",
  "onratechange", "onreset", "onresize", "onscroll", "onseeked", "onseeking", "onselect", "onshow",
  "onsort", "onstalled", "onsubmit", "onsuspend", "ontimeupdate", "ontoggle", "onvolumechange",
  "onwaiting", "accesskey", "autocapitalize", "autofocus", "class", "contenteditable",
  "contextmenu", "dir", "draggable", "enterkeyhint", "exportparts", "hidden", "id", "inputmode",
  "is", "itemid", "itemprop", "itemref", "itemscope", "itemtype", "lang", "nonce", "part", "role",
  "slot", "spellcheck", "style", "tabindex", "target", "title", "translate", "method", "required",
  "for", "action", "placeholder"]

/-- Whether a name is one of the standard list or begins like a group. -/
def contains (name : String) : Bool :=
  names.contains name || groups.any fun g => g.toList.isPrefixOf name.toList

end LiveTemplate.GlobalAttribute
